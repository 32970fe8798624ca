import StackScript.Proofs.Compile.ExpressionCode
import StackScript.Proofs.Tree.Scoping

/-!
# The code of statements

Where the tokens ahead are those of a grouped statement, compiling it appends the code of the
statement. It is clean exactly if all locals in it can be declared where they are and the code keeps
the limits. The same holds of lists of declarations, which moreover leave new locals behind.

* **`yields_variableDeclaration`**, **`yields_condition`** and so on follow the compiler's own
  functions.
* **`yields_branches`** follows the two branches of a conditional.
* **`yields_loop`** is shared by both kinds of loops: it starts where the condition has been
  compiled.

A statement inside another one is assumed to compile (**`StmtCompiles`**); the induction on the tree
comes later.
-/

namespace StackScript

open Lowering (instruction instructions pool jump)

open StackScript.Tree

namespace Compile

/-! ## States and blocks

The states of the compiler between the parts of a statement, with the blocks that are open. -/

/-- The state in which the given blocks are open. -/
def State.within (s : State) (blocks : Blocks) : State :=
  { s with scope := .ofBlocks blocks }

@[simp] theorem State.cursor_within (s : State) (blocks : Blocks) :
    (s.within blocks).cursor = s.cursor := rfl

@[simp] theorem State.chunk_within (s : State) (blocks : Blocks) :
    (s.within blocks).chunk = s.chunk := rfl

@[simp] theorem State.scope_within (s : State) (blocks : Blocks) :
    (s.within blocks).scope = .ofBlocks blocks := rfl

theorem State.within_of_scope {s : State} {blocks : Blocks} (h : s.scope = .ofBlocks blocks) :
    s.within blocks = s := by
  rw [State.within, ← h]

/-- A token after which an expression is complete. -/
def Ends (rest : List Token) : Prop :=
  nextKind rest = .semicolon ∨ nextKind rest = .rightParen

/-- No operator is a semicolon. -/
theorem ends_semicolon (token : TokenOf .semicolon) (rest : List Token) :
    Ends (token.val :: rest) :=
  .inl token.property

/-- No operator is a closing parenthesis. -/
theorem ends_rightParen (token : TokenOf .rightParen) (rest : List Token) :
    Ends (token.val :: rest) :=
  .inr token.property

/-- A whole expression after other code, while a local may be waiting for its value. -/
theorem yields_expression_during {value : Expr} (h : value.Grouped) (token : Token)
    (code : Lowering) {bound : Nat} {blocks : Blocks} {pending : Option String}
    {rest : List Token} {s : State}
    (hscope : s.scope = .during blocks pending)
    (hroom : s.chunk.constants.size + code.constants.length ≤ Chunk.maxConstants)
    (hbound : value.tokens.length + rest.length ≤ bound) (hends : Ends rest) :
    Yields (expression bound) ((s.past token (value.tokens ++ rest)).append code) ()
      ((s.past value.last rest).append
        (code ++ value.lower blocks.flatten (s.chunk.constants.size + code.constants.length)))
      (Fits blocks pending (s.chunk.constants.size + code.constants.length) value) := by
  refine (compiles_of_grouped h).after hscope hroom hbound value.assignment_le_level ?_ ?_
  · rcases hends with hkind | hkind <;> rw [hkind] <;> decide
  · rcases hends with hkind | hkind <;> rw [hkind] <;> decide

/-- A piece of code with the given locals can be compiled after `base` constants. -/
def PieceFits (locals : List (Blocks × VarDecl)) (base : Nat) (code : Lowering) : Prop :=
  Scoped locals ∧ code.Limits base

/-- Two parts fit if the second fits after the constants of the first. -/
theorem pieceFits_append {a b : List (Blocks × VarDecl)} {base : Nat} {x y : Lowering} :
    PieceFits (a ++ b) base (x ++ y) ↔
      PieceFits a base x ∧ PieceFits b (base + x.constants.length) y := by
  rw [PieceFits, scoped_append, Lowering.limits_append]
  exact and_and_and_comm

/-- In an expression that belongs to no declaration all names can be used. -/
theorem fits_none {blocks : Blocks} {base : Nat} {value : Expr} :
    Fits blocks none base value ↔ PieceFits [] base (value.lower blocks.flatten base) :=
  ⟨fun h => ⟨scoped_nil, h.2⟩, fun h => ⟨fun _ => (nomatch ·), h.2⟩⟩

/-- A whole expression that belongs to no declaration. -/
theorem yields_expression {value : Expr} (h : value.Grouped) {bound : Nat} {blocks : Blocks}
    {rest : List Token} {s : State}
    (hreading : Reading bound (.ofBlocks blocks) value.tokens rest s) (hends : Ends rest) :
    Yields (expression bound) s ()
      ((s.past value.last rest).append (value.lower blocks.flatten s.chunk.constants.size))
      (PieceFits [] s.chunk.constants.size
        (value.lower blocks.flatten s.chunk.constants.size)) := by
  have hcursor : s.cursor = ⟨s.cursor.previous, value.tokens ++ rest⟩ := by
    rw [← hreading.ahead]
  have hscope : s.scope = .during blocks none := hreading.scope
  have hvalue := yields_expression_during h s.cursor.previous .empty hscope hreading.room
    hreading.bound hends
  rw [State.append_empty, Lowering.empty_append, State.past_of_cursor hcursor] at hvalue
  exact hvalue.congr fits_none

/-! ## Declarations

A global takes a constant for its name and an instruction after its value. A local takes a slot,
which is where its value is put. -/

/-- The tokens of a declaration after the name. -/
def valueTokens (d : VarDecl) : List Token :=
  match d.initializer with
  | none => [d.semicolon.val]
  | some (equal, value) => equal.val :: (value.tokens ++ [d.semicolon.val])

theorem tokens_varDecl (d : VarDecl) : d.tokens = d.name.val :: valueTokens d := by
  rw [VarDecl.tokens, valueTokens]
  cases d.initializer <;> rfl

/-- The value of a declared variable fits where it stands. -/
def ValueFits (blocks : Blocks) (pending : Option String) (base : Nat) (d : VarDecl) : Prop :=
  Unused pending d.valueNames ∧ (d.lowerValue blocks.flatten base).Limits base

/-- The value of a declared variable, which is `nil` if it has none. -/
theorem yields_initializer {d : VarDecl} (h : d.Grouped) (code : Lowering) {bound : Nat}
    {blocks : Blocks} {pending : Option String} {rest : List Token} {s : State}
    (hscope : s.scope = .during blocks pending)
    (hroom : s.chunk.constants.size + code.constants.length ≤ Chunk.maxConstants)
    (hbound : (valueTokens d).length + rest.length ≤ bound) :
    Yields (initializer bound) ((s.past d.name.val (valueTokens d ++ rest)).append code) ()
      ((s.past d.semicolon.val rest).append
        (code ++ d.lowerValue blocks.flatten (s.chunk.constants.size + code.constants.length)))
      (ValueFits blocks pending (s.chunk.constants.size + code.constants.length) d) := by
  obtain ⟨name, value, semicolon⟩ := d
  cases value with
  | none =>
    let t := (s.past name.val (semicolon.val :: rest)).append code
    have hequal : accept .equal t = .ok false t :=
      accept_of_ne .equal fun hkind => by
        rw [State.cursor_append, State.cursor_past, nextKind_cons, semicolon.property] at hkind
        cases hkind
    -- without a value the variable gets `nil`
    have hnil : (emit .nil >>= fun _ => expect .semicolon .semicolonAfterVariable) t =
        .ok () ((s.past semicolon.val rest).append (code ++ instruction .nil name.val.line)) := by
      rw [bind_of_ok (emit_apply _ _), State.append_append]
      exact expect_cons rfl .semicolon _ semicolon.property
    exact (Yields.after hequal (yields_of_ok hnil) rfl).congr
      ⟨fun _ => ⟨unused_nil pending, Lowering.limits_instruction hroom _ _⟩, fun _ => trivial⟩
  | some value =>
    obtain ⟨equal, value⟩ := value
    have hvalue : value.Grouped := h (equal, value) rfl
    have hlength : value.tokens.length + (semicolon.val :: rest).length ≤ bound := by
      simp only [valueTokens, List.length_cons, List.length_append, List.length_nil] at hbound ⊢
      omega
    have hahead : equal.val :: (value.tokens ++ [semicolon.val]) ++ rest =
        equal.val :: (value.tokens ++ (semicolon.val :: rest)) := by simp
    have hyields := yields_expression_during hvalue equal.val code hscope hroom hlength
      (ends_semicolon semicolon rest)
    have hassigns : accept .equal
        ((s.past name.val (equal.val :: (value.tokens ++ (semicolon.val :: rest)))).append code) =
          .ok true ((s.past equal.val (value.tokens ++ (semicolon.val :: rest))).append code) :=
      accept_cons rfl .equal equal.property
    simp only [valueTokens, hahead]
    exact Yields.after hassigns (hyields.andThen
      (expect_cons rfl .semicolon _ semicolon.property) fun _ => respects_expect _ _) rfl

/-- Outside all blocks the name of a declared variable becomes a constant. -/
theorem yields_declareVariable_global {s : State} (h : s.scope = .ofBlocks []) :
    Yields declareVariable s (some s.chunk.constants.size.toUInt8)
      (s.append (pool [.string s.cursor.previous.lexeme]))
      (s.chunk.constants.size < Chunk.maxConstants) := by
  have hget : (get : CompileM State) s = .ok s s := rfl
  have hdepth : s.scope.depth = 0 := by
    rw [h]
    rfl
  refine Yields.after (previous_apply s) (Yields.after hget ?_ rfl) rfl
  rw [if_pos hdepth]
  exact (yields_of_ite (addConstant_apply _ s) rfl rfl).andThen rfl fun _ => respects_pure _

/-- Inside a block a variable is declared if its name is new and a slot is left. -/
theorem yields_declareVariable_local {s : State} {block : List String} {outer : Blocks}
    (h : s.scope = .ofBlocks (block :: outer)) :
    Yields declareVariable s none { s with scope := s.scope.declare s.cursor.previous.lexeme }
      (s.cursor.previous.lexeme ∉ block ∧ HasSlot (block :: outer)) := by
  have hget : (get : CompileM State) s = .ok s s := rfl
  have hdepth : ¬ s.scope.depth = 0 := by
    rw [h]
    exact Nat.succ_ne_zero _
  refine Yields.after (previous_apply s) (Yields.after hget ?_ rfl) rfl
  rw [if_neg hdepth, h, Scope.declares_ofBlocks, Scope.isFull_ofBlocks]
  by_cases hname : s.cursor.previous.lexeme ∈ block
  -- the name is taken in this block
  · rw [if_pos (decide_eq_true hname)]
    exact ⟨fun hfits => absurd hname hfits.1,
      fun _ => rejects_of_error (failAtPrevious_apply _ s) rfl rfl⟩
  · rw [if_neg (by simpa using hname)]
    by_cases hfull : Scope.maxLocals ≤ (block :: outer).flatten.length
    -- there are as many locals as slots
    · rw [if_pos (decide_eq_true hfull)]
      refine ⟨fun hfits => ?_, fun _ => rejects_of_error (failAtPrevious_apply _ s) rfl rfl⟩
      exact absurd hfull (Nat.not_le_of_lt hfits.2)
    · rw [if_neg (by simpa using hfull)]
      refine (yields_of_ok ?_).congr
        ⟨fun _ => ⟨hname, Nat.lt_of_not_le hfull⟩, fun _ => trivial⟩
      rw [← h]
      rfl

/-- There is room for the name and then for the value. -/
theorem pieceFits_global {base : Nat} {d : VarDecl} :
    PieceFits (d.locals []) base (d.lower [] base) ↔
      base < Chunk.maxConstants ∧ ValueFits [] none (base + 1) d := by
  have hunused : Unused none d.valueNames := fun _ hname => nomatch hname
  rw [PieceFits, ValueFits, VarDecl.lower, Lowering.limits_append_instruction,
    Lowering.limits_append, Lowering.limits_pool]
  exact ⟨fun h => ⟨h.2.1, hunused, h.2.2⟩, fun h => ⟨scoped_nil, h.1, h.2.2⟩⟩

/-- The name is new in its block, and there is a slot for it. -/
theorem pieceFits_local {block : List String} {outer : Blocks} {base : Nat} {d : VarDecl} :
    PieceFits (d.locals (block :: outer)) base (d.lower (block :: outer) base) ↔
      (d.name.val.lexeme ∉ block ∧ HasSlot (block :: outer)) ∧
        ValueFits (block :: outer) (some d.name.val.lexeme) base d := by
  have hunused : Unused (some d.name.val.lexeme) d.valueNames ↔ d.IsIndependent := by
    simp [Unused, VarDecl.IsIndependent]
  rw [PieceFits, ValueFits, VarDecl.locals, scoped_singleton, VarDecl.lower, hunused]
  constructor
  · rintro ⟨hadmitted, hlimits⟩
    exact ⟨⟨hadmitted.isNew, hadmitted.hasSlot⟩, hadmitted.isIndependent, hlimits⟩
  · rintro ⟨⟨hnew, hslot⟩, hindependent, hlimits⟩
    exact ⟨⟨hnew, hindependent, hslot⟩, hlimits⟩

/-- A declaration after its keyword. -/
theorem yields_variableDeclaration {d : VarDecl} (h : d.Grouped) {bound : Nat} {blocks : Blocks}
    {rest : List Token} {s : State}
    (hreading : Reading bound (.ofBlocks blocks) d.tokens rest s) :
    Yields (variableDeclaration bound) s ()
      (((s.past d.semicolon.val rest).append (d.lower blocks s.chunk.constants.size)).within
        (blocks.declare d.name.val.lexeme))
      (PieceFits (d.locals blocks) s.chunk.constants.size
        (d.lower blocks s.chunk.constants.size)) := by
  have htokens := tokens_varDecl d
  have hbound : (valueTokens d).length + rest.length ≤ bound := by
    have hbound := hreading.bound
    rw [htokens, List.length_cons] at hbound
    omega
  have hahead : s.cursor.ahead = d.name.val :: (valueTokens d ++ rest) := by
    rw [hreading.ahead, htokens, List.cons_append]
  let t := s.past d.name.val (valueTokens d ++ rest)
  have hname : expect .identifier .variableName s = .ok () t :=
    expect_cons hahead .identifier _ d.name.property
  refine Yields.after hname ?_ rfl
  have hgrows : ∀ name, Grows (attempt (initializer bound) >>= fun outcome =>
      defineVariable name >>= fun _ => settle outcome) := by
    intro name
    refine respects_bind (respects_attempt (respects_initializer bound)) fun outcome => ?_
    refine respects_bind (respects_defineVariable name) fun _ => ?_
    exact respects_settle outcome
  cases blocks with
  | nil =>
    -- a global: its name goes to the pool before its value is compiled
    have hscope : t.scope = .during [] none := hreading.scope
    refine ((yields_declareVariable_global hscope).bind (fun hroom => ?_) hgrows rfl).congr
      pieceFits_global.symm
    have hvalue := yields_initializer h (pool [.string d.name.val.lexeme]) (s := s) hscope hroom
      hbound
    refine hvalue.settled ?_ (settles_defineVariable _)
    have hend : s.within [] = s := State.within_of_scope hreading.scope
    rw [defineVariable, emit_apply, State.append_append]
    exact congrArg (fun s : State => EStateM.Result.ok () ((s.past _ _).append _)) hend.symm
  | cons block outer =>
    have hscope : t.scope = .ofBlocks (block :: outer) := hreading.scope
    refine ((yields_declareVariable_local hscope).bind (fun _ => ?_) hgrows rfl).congr
      pieceFits_local.symm
    -- a local: it is declared first, and cannot be used before its value is there
    let u : State := { s with scope := s.scope.declare d.name.val.lexeme }
    have hpending : u.scope = .during (block :: outer) (some d.name.val.lexeme) := by
      simp [u, hreading.scope, Scope.during]
    have hvalue := yields_initializer h .empty hpending hreading.room hbound
    rw [State.append_empty, Lowering.empty_append] at hvalue
    have hmark : u.scope.markInitialized =
        .ofBlocks (Blocks.declare d.name.val.lexeme (block :: outer)) := by
      rw [hpending]
      rfl
    refine hvalue.settled ?_ (settles_defineVariable _)
    rw [State.within, ← hmark]
    rfl

/-! ## Expressions in statements

A value is compiled up to the token that ends it, which is expected after it. -/

/-- Of several tokens the first ones are read while the others wait. -/
theorem Reading.left {bound : Nat} {scope : Scope} {tokens more rest : List Token} {s : State}
    (h : Reading bound scope (tokens ++ more) rest s) :
    Reading bound scope tokens (more ++ rest) s := by
  have hbound := h.bound
  rw [List.length_append] at hbound
  refine ⟨by rw [h.ahead, List.append_assoc], ?_, h.scope, h.room⟩
  rw [List.length_append]
  omega

/-- After the first tokens and their code the others are read. -/
theorem Reading.right {bound : Nat} {scope : Scope} {tokens more rest : List Token} {s : State}
    (h : Reading bound scope (tokens ++ more) rest s) (last : Token) {code : Lowering}
    (hroom : s.chunk.constants.size + code.constants.length ≤ Chunk.maxConstants) :
    Reading bound scope more rest ((s.past last (more ++ rest)).append code) := by
  have hbound := h.bound
  rw [List.length_append] at hbound
  refine ⟨rfl, by omega, h.scope, ?_⟩
  rwa [State.chunk_append, State.chunk_past, Chunk.size_constants_extend]

section Expressions

variable {bound : Nat} {blocks : Blocks} {rest : List Token} {s : State}

/-- An expression, a semicolon, and the instruction for what happens to the value. -/
theorem yields_valueStatement {value : Expr} (h : value.Grouped) {semicolon : TokenOf .semicolon}
    (what : Expectation) (i : Instruction)
    (hreading : Reading bound (.ofBlocks blocks) (value.tokens ++ [semicolon.val]) rest s) :
    Yields (do expression bound; expect .semicolon what; emit i) s ()
      ((s.past semicolon.val rest).append
        (value.lower blocks.flatten s.chunk.constants.size ++ instruction i semicolon.val.line))
      (PieceFits [] s.chunk.constants.size
        (value.lower blocks.flatten s.chunk.constants.size ++
          instruction i semicolon.val.line)) := by
  have hvalue := yields_expression h hreading.left (ends_semicolon semicolon rest)
  have hfits : ∀ code : Lowering, PieceFits [] s.chunk.constants.size code ↔
      PieceFits [] s.chunk.constants.size (code ++ instruction i semicolon.val.line) := by
    intro code
    rw [PieceFits, PieceFits, Lowering.limits_append_instruction]
  refine Yields.congr
    (hvalue.andThen ?_ fun _ => respects_bind (respects_expect _ _) fun _ => respects_emit _)
    (hfits _)
  rw [bind_of_ok (expect_cons rfl .semicolon what semicolon.property), emit_apply,
    State.past_append_past, State.append_append]
  rfl

/-- A condition in its parentheses. -/
theorem yields_condition {c : Condition} (h : c.value.Grouped) (what : Expectation)
    (hreading : Reading bound (.ofBlocks blocks) c.tokens rest s) :
    Yields (condition bound what) s ()
      ((s.past c.right.val rest).append (c.value.lower blocks.flatten s.chunk.constants.size))
      (PieceFits [] s.chunk.constants.size
        (c.value.lower blocks.flatten s.chunk.constants.size)) := by
  have hahead : s.cursor.ahead = c.left.val :: (c.value.tokens ++ (c.right.val :: rest)) := by
    rw [hreading.ahead, Condition.tokens, List.cons_append, List.append_assoc,
      List.singleton_append]
  have hinner : Reading bound (.ofBlocks blocks) c.value.tokens (c.right.val :: rest)
      (s.past c.left.val (c.value.tokens ++ (c.right.val :: rest))) := by
    have hbound := hreading.bound
    rw [Condition.tokens, List.length_cons, List.length_append, List.length_singleton] at hbound
    refine ⟨rfl, ?_, hreading.scope, hreading.room⟩
    rw [List.length_cons]
    omega
  have hvalue := yields_expression h hinner (ends_rightParen c.right rest)
  refine Yields.after (expect_cons hahead .leftParen what c.left.property) ?_ rfl
  exact hvalue.andThen (expect_cons rfl .rightParen _ c.right.property) fun _ => respects_expect _ _

end Expressions

/-! ## Conditionals

The two jumps of a conditional are emitted before their targets are known, and completed after the
branches. -/

/-- A statement compiles to its code, unless an `else` follows that it would take. -/
def StmtCompiles (t : Stmt) : Prop :=
  ∀ ⦃bound blocks rest s⦄, Reading bound (.ofBlocks blocks) t.tokens rest s →
    (t.endsOpen = true → nextKind rest ≠ .elseKw) →
    Yields (statement bound) s ()
      ((s.past t.last rest).append (t.lower blocks s.chunk.constants.size))
      (PieceFits (t.locals blocks) s.chunk.constants.size (t.lower blocks s.chunk.constants.size))

/-- Compiles the second branch of a conditional, if there is one. -/
def elseBranch (branch : CompileM Unit) : CompileM Unit := do
  if ← accept .elseKw then
    branch

/-- Code is only added. -/
theorem grows_elseBranch {branch : CompileM Unit} (h : Grows branch) :
    Grows (elseBranch branch) := by
  refine respects_bind (respects_accept _) fun hasElse => ?_
  exact respects_ite h (respects_pure _)

/-- The second branch of a conditional, up to where the jump over it arrives. -/
theorem grows_secondBranch (bound done : Nat) :
    Grows (do
      (do emit .pop; elseBranch (statement bound))
      patchJump done) := by
  have hbranch : Grows (do emit .pop; elseBranch (statement bound)) :=
    respects_bind (respects_emit _) fun _ => grows_elseBranch (respects_statement bound)
  exact respects_bind hbranch fun _ => respects_patchJump done

/-- What is compiled of a conditional after its first branch. -/
theorem grows_afterFirst (bound otherwise : Nat) :
    Grows (do
      let done ← emitJump .jump
      patchJump otherwise
      (do emit .pop; elseBranch (statement bound))
      patchJump done) := by
  refine respects_bind (respects_emitJump _) fun done => ?_
  refine respects_bind (respects_patchJump otherwise) fun _ => ?_
  exact grows_secondBranch bound done

/-- An `else` branch compiles to its code, and to none if it is missing. -/
def ElseCompiles (t : Else) : Prop :=
  ∀ ⦃bound blocks rest s⦄, Reading bound (.ofBlocks blocks) t.tokens rest s →
    (t.endsOpen = true → nextKind rest ≠ .elseKw) →
    Yields (elseBranch (statement bound)) s ()
      ((s.past (t.lastAfter s.cursor.previous) rest).append (t.lower blocks s.chunk.constants.size))
      (PieceFits (t.locals blocks) s.chunk.constants.size (t.lower blocks s.chunk.constants.size))

/-- Without the keyword nothing is compiled. -/
theorem elseCompiles_none : ElseCompiles .none := by
  intro bound blocks rest s hreading hopen
  have hcursor : s.cursor = ⟨s.cursor.previous, rest⟩ := by
    rw [← hreading.ahead.trans (List.nil_append rest)]
  have hnone : accept .elseKw s = .ok false s := by
    refine accept_of_ne .elseKw ?_
    rw [hreading.ahead]
    exact hopen rfl
  have hskip : elseBranch (statement bound) s = .ok () s := by
    rw [elseBranch, bind_of_ok hnone]
    rfl
  rw [Else.lastAfter, Else.lower, Else.locals, State.past_of_cursor hcursor, State.append_empty]
  exact (yields_of_ok hskip).congr
    ⟨fun _ => ⟨scoped_nil, Lowering.limits_empty hreading.room⟩, fun _ => trivial⟩

/-- The keyword is accepted, and the branch follows. -/
theorem elseCompiles_branch {keyword : TokenOf .elseKw} {body : Stmt} (h : StmtCompiles body) :
    ElseCompiles (.branch keyword body) := by
  intro bound blocks rest s hreading hopen
  have hahead : s.cursor.ahead = keyword.val :: (body.tokens ++ rest) := hreading.ahead
  have hbody : Reading bound (.ofBlocks blocks) body.tokens rest
      (s.past keyword.val (body.tokens ++ rest)) := by
    have hbound := hreading.bound
    rw [Else.tokens, List.length_cons] at hbound
    exact ⟨rfl, by omega, hreading.scope, hreading.room⟩
  exact Yields.after (accept_cons hahead .elseKw keyword.property) (h hbody hopen) rfl

/-- A conditional with its branches taken together with the pops before them. -/
theorem ifStatement_eq (bound : Nat) (branch : CompileM Unit) :
    ifStatement bound branch = (do
      condition bound .parenAfterIf
      let otherwise ← emitJump .jumpIfFalse
      (do emit .pop; branch)
      let done ← emitJump .jump
      patchJump otherwise
      (do emit .pop; elseBranch branch)
      patchJump done) := by
  have helse : ∀ done, (elseBranch branch >>= fun _ => patchJump done) =
      (accept .elseKw >>= fun has =>
        if has then (branch >>= fun _ => patchJump done) else patchJump done) := by
    intro done
    rw [elseBranch, bind_assoc]
    congr 1
    funext has
    cases has <;> simp
  simp only [ifStatement, bind_assoc, helse]

section Conditionals

variable {bound : Nat} {blocks : Blocks} {rest : List Token} {s : State}

/-- The same tokens are ahead after an instruction. -/
theorem Reading.append_instruction {scope : Scope} {tokens : List Token}
    (h : Reading bound scope tokens rest s) (i : Instruction) (line : Nat) :
    Reading bound scope tokens rest (s.append (instruction i line)) :=
  ⟨h.ahead, h.bound, h.scope, by simpa using h.room⟩

/-- A jump that has no target yet does not affect what is read. -/
theorem Reading.awaiting {scope : Scope} {tokens : List Token}
    (h : Reading bound scope tokens rest s) (make : UInt16 → Instruction) :
    Reading bound scope tokens rest (s.awaiting make) :=
  ⟨h.ahead, h.bound, h.scope, by simpa using h.room⟩

/-- An instruction needs no constants. -/
theorem pieceFits_instruction_append {locals : List (Blocks × VarDecl)} {base : Nat}
    {i : Instruction} {line : Nat} {code : Lowering} :
    PieceFits locals base (instruction i line ++ code) ↔ PieceFits locals base code := by
  rw [PieceFits, PieceFits, Lowering.limits_instruction_append]

/-- A step after the value on top of the stack is dropped. -/
theorem Yields.afterPop {x : CompileM Unit} {last : Token} {code : Lowering} {P : Prop}
    (h : Yields x (s.append (instruction .pop s.cursor.previous.line)) ()
      (((s.append (instruction .pop s.cursor.previous.line)).past last rest).append code) P) :
    Yields (do emit .pop; x) s ()
      ((s.past last rest).append (instruction .pop s.cursor.previous.line ++ code)) P := by
  rw [← State.append_append]
  exact Yields.after (emit_apply _ _) h rfl

/-- The two branches of a conditional, after its condition. -/
theorem yields_branches {body : Stmt} {otherwise : Else} (hbody : StmtCompiles body)
    (helse : ElseCompiles otherwise)
    (hreading : Reading bound (.ofBlocks blocks) (body.tokens ++ otherwise.tokens) rest s)
    (hfirst : body.endsOpen = true → nextKind (otherwise.tokens ++ rest) ≠ .elseKw)
    (hsecond : otherwise.endsOpen = true → nextKind rest ≠ .elseKw) {first second : Lowering}
    (hfirstCode : first = instruction .pop s.cursor.previous.line ++
      body.lower blocks s.chunk.constants.size)
    (hsecondCode : second = instruction .pop body.last.line ++
      otherwise.lower blocks (s.chunk.constants.size + first.constants.length)) :
    Yields (do
        let otherwise ← emitJump .jumpIfFalse
        (do emit .pop; statement bound)
        let done ← emitJump .jump
        patchJump otherwise
        (do emit .pop; elseBranch (statement bound))
        patchJump done) s ()
      ((s.past (otherwise.lastAfter body.last) rest).append
        (lowerBranches s.cursor.previous.line first body.last.line second))
      (PieceFits (body.locals blocks) s.chunk.constants.size first ∧
        first.size + 3 ≤ maxDistance ∧
        PieceFits (otherwise.locals blocks) (s.chunk.constants.size + first.constants.length)
          second ∧
        second.size ≤ maxDistance) := by
  let base := s.chunk.constants.size
  let more := otherwise.tokens ++ rest
  let waiting := ((s.awaiting .jumpIfFalse).past body.last more).append first
  let decided := (s.past body.last more).append
    (jump .jumpIfFalse (first.size + 3) s.cursor.previous.line ++ first)
  -- the first branch, with its jump still open
  have hbranch : Yields (do emit .pop; statement bound) (s.awaiting .jumpIfFalse) () waiting
      (PieceFits (body.locals blocks) base first) := by
    have hsize : ((s.awaiting .jumpIfFalse).append
        (instruction .pop s.cursor.previous.line)).chunk.constants.size = base := by
      simp [base]
    have hyields := hbody ((hreading.left.awaiting .jumpIfFalse).append_instruction .pop
      s.cursor.previous.line) hfirst
    rw [hsize] at hyields
    have hafter := Yields.afterPop (s := s.awaiting .jumpIfFalse) hyields
    subst hfirstCode
    exact hafter.congr pieceFits_instruction_append.symm
  -- the second branch, with the jump after the first one still open
  have hotherwise (hroom : base + first.constants.length ≤ Chunk.maxConstants) :
      Yields (do emit .pop; elseBranch (statement bound)) (decided.awaiting .jump) ()
        (((decided.awaiting .jump).past (otherwise.lastAfter body.last) rest).append second)
        (PieceFits (otherwise.locals blocks) (base + first.constants.length) second) := by
    have hsize : ((decided.awaiting .jump).append
        (instruction .pop body.last.line)).chunk.constants.size =
          base + first.constants.length := by
      simp [decided, base]
    have hmore : Reading bound (.ofBlocks blocks) otherwise.tokens rest decided := by
      have hbound := hreading.bound
      rw [List.length_append] at hbound
      exact ⟨rfl, by omega, hreading.scope, by simpa [decided] using hroom⟩
    have hyields := helse ((hmore.awaiting .jump).append_instruction .pop body.last.line) hsecond
    rw [hsize] at hyields
    have hafter := Yields.afterPop (s := decided.awaiting .jump) hyields
    subst hsecondCode
    exact hafter.congr pieceFits_instruction_append.symm
  -- patching a jump does not move what comes after it
  have hsizes : waiting.chunk.size = decided.chunk.size := by
    simp [waiting, decided, Chunk.isForward_jumpIfFalse.size_jump]
    omega
  have hopened :
      emitJump .jump waiting = .ok (decided.chunk.size + 1) (waiting.awaiting .jump) := by
    rw [emitJump_apply, hsizes]
  have hpatched := yields_patchJump_awaiting Chunk.isForward_jumpIfFalse Chunk.isForward_jump s
    body.last more first
  have hend : (decided.past (otherwise.lastAfter body.last) rest).append
      (jump .jump second.size body.last.line ++ second) =
        (s.past (otherwise.lastAfter body.last) rest).append
          (lowerBranches s.cursor.previous.line first body.last.line second) := by
    simp only [decided, State.past_append_past, State.append_append, lowerBranches,
      Lowering.append_assoc]
  rw [← hend]
  refine Yields.after (emitJump_apply .jumpIfFalse s) (hbranch.bind (fun hfits => ?_) (fun _ => ?_)
    rfl) rfl
  · refine Yields.after hopened (hpatched.bind (fun _ => ?_) (fun _ => ?_) rfl) rfl
    · exact (hotherwise hfits.2.1).bind (fun _ => yields_patchJump Chunk.isForward_jump ..)
        (fun _ => respects_patchJump _) rfl
    · exact grows_secondBranch bound _
  · exact grows_afterFirst bound _

end Conditionals

/-! ## Loops

Every loop is the loop of a `for` statement, in which clauses may be missing. -/

/-- The state after the test of a loop, which may be missing. The jump that leaves the loop is
open. -/
def State.tested (s : State) (last : Token) (rest : List Token) : Option Lowering → State
  | none => s.past last rest
  | some test =>
    (((s.past last rest).append test).awaiting .jumpIfFalse).append (instruction .pop last.line)

/-- The jump that leaves the loop. -/
def leaveJump (s : State) : Option Lowering → Option Nat
  | none => none
  | some test => some ((s.chunk.extend test).size + 1)

/-- The end of a loop, where the jump that leaves it arrives. -/
def loopEnd (leave : Option Nat) : CompileM Unit :=
  match leave with
  | none => pure ()
  | some done => do
    patchJump done
    emit .pop

section Loops

variable {bound : Nat} {blocks : Blocks} {rest : List Token} {s : State}

/-- The size of the chunk after the test. -/
theorem size_chunk_tested (s : State) (last : Token) (rest : List Token)
    (test : Option Lowering) :
    (s.tested last rest test).chunk.size = s.chunk.size + testSize test := by
  cases test with
  | none => rfl
  | some test =>
    simp [State.tested, testSize, Chunk.isForward_jumpIfFalse.size_jump]
    omega

/-- The number of constants after the test. -/
theorem size_constants_tested (s : State) (last : Token) (rest : List Token)
    (test : Option Lowering) :
    (s.tested last rest test).chunk.constants.size =
      s.chunk.constants.size + constantCount test := by
  cases test with
  | none => rfl
  | some test => simp [State.tested, constantCount]

@[simp] theorem scope_tested (s : State) (last : Token) (rest : List Token)
    (test : Option Lowering) : (s.tested last rest test).scope = s.scope := by
  cases test <;> rfl

@[simp] theorem errors_tested (s : State) (last : Token) (rest : List Token)
    (test : Option Lowering) : (s.tested last rest test).errors = s.errors := by
  cases test <;> rfl

/-- Where a loop ends the jump over the rest of it is completed, and the value of the condition is
dropped. -/
theorem yields_loopEnd (test : Option Lowering) (last final : Token) (rest after : List Token)
    (code : Lowering) :
    Yields (loopEnd (leaveJump s test))
      (((s.tested last rest test).past final after).append code) ()
      ((s.past final after).append
        (lowerTest last.line code.size test ++ code ++ lowerExit final.line test))
      (test.isSome → 1 + code.size ≤ maxDistance) := by
  cases test with
  | none =>
    refine (yields_of_ok ?_).congr ⟨fun _ => (nomatch ·), fun _ => trivial⟩
    simp only [lowerTest, lowerExit, Lowering.empty_append, Lowering.append_empty]
    rfl
  | some test =>
    have hsize : (instruction .pop last.line ++ code).size = 1 + code.size := by simp
    have hpatch := yields_patchJump Chunk.isForward_jumpIfFalse ((s.past last rest).append test)
      final after (instruction .pop last.line ++ code)
    have hpop := hpatch.andThen (emit_apply .pop _) fun _ => respects_emit _
    -- the code over which the jump leads starts with the pop after the test
    have hstart : ((s.tested last rest (some test)).past final after).append code =
        ((((s.past last rest).append test).awaiting .jumpIfFalse).past final after).append
          (instruction .pop last.line ++ code) := by
      rw [← State.append_append]
      rfl
    rw [hsize, State.past_append_past, State.append_append, State.append_append] at hpop
    rw [hstart]
    simp only [lowerTest, lowerExit, Lowering.append_assoc] at hpop ⊢
    exact hpop.congr ⟨fun h _ => h, fun h => h rfl⟩

/-- Before an expression no token is accepted that cannot start one. -/
theorem accept_before_expression (value : Expr) {more : List Token} (kind : Kind)
    (hkind : kind.prefixForm? = none) (hahead : s.cursor.ahead = value.tokens ++ more) :
    accept kind s = .ok false s := by
  obtain ⟨token, others, htokens, hform⟩ := value.tokens_eq_cons
  refine accept_of_ne kind fun hnext => ?_
  rw [hahead, htokens, List.cons_append, nextKind_cons] at hnext
  rw [hnext, hkind] at hform
  cases hform

/-- The jump back from the end of a round. -/
theorem yields_emitLoop {start round : Nat} (h : start + round = s.chunk.size) :
    Yields (emitLoop start) s ()
      (s.append (jump .loop (round + 3) s.cursor.previous.line)) (round + 3 ≤ maxDistance) := by
  have hround : s.chunk.size - start = round := by omega
  have happly := emitLoop_apply start s (by omega)
  rw [hround] at happly
  exact yields_of_ite happly rfl rfl

/-- An increment fits if its value does and the jumps over it and back to the start are not too
long. -/
theorem pieceFits_lowerIncrement {base enter leave test : Nat} {names : List String}
    {value : Expr} {code : Lowering} (hcode : code = lowerDiscarded names base value) :
    PieceFits [] base (lowerIncrement enter leave test (some code)) ↔
      PieceFits [] base (value.lower names base) ∧
        test + 3 + code.size + 3 ≤ maxDistance ∧ code.size + 3 ≤ maxDistance := by
  have hvalue : code.Limits base ↔ (value.lower names base).Limits base := by
    rw [hcode]
    exact Lowering.limits_append_instruction
  rw [PieceFits, PieceFits, limits_lowerIncrement, hvalue]
  constructor
  · rintro ⟨hscoped, hlimits, hover, hback⟩
    exact ⟨⟨hscoped, hlimits⟩, hback, hover⟩
  · rintro ⟨⟨hscoped, hlimits⟩, hback, hover⟩
    exact ⟨hscoped, hlimits, hover, hback⟩

/-- An increment is compiled before the body, and jumped over on the way in. -/
theorem yields_increment {value : Expr} (h : value.Grouped) {right : TokenOf .rightParen}
    {start test : Nat}
    (hreading : Reading bound (.ofBlocks blocks) (value.tokens ++ [right.val]) rest s)
    (hstart : start + test = s.chunk.size) {code : Lowering}
    (hcode : code = lowerDiscarded blocks.flatten s.chunk.constants.size value) :
    Yields (forIncrement bound start) s (s.chunk.size + 3)
      ((s.past right.val rest).append
        (lowerIncrement s.cursor.previous.line right.val.line test (some code)))
      (PieceFits [] s.chunk.constants.size
        (lowerIncrement s.cursor.previous.line right.val.line test (some code))) := by
  let t := s.awaiting .jump
  let back := jump .loop (test + 3 + code.size + 3) right.val.line
  have hopen : accept .rightParen s = .ok false s :=
    accept_before_expression value .rightParen rfl hreading.left.ahead
  have hplace : t.chunk.size = s.chunk.size + 3 := by
    simp [t, Chunk.isForward_jump.size_jump]
  have hbase : t.chunk.constants.size = s.chunk.constants.size := by simp [t]
  have hvalue := yields_expression h (hreading.left.awaiting .jump) (ends_rightParen right rest)
  rw [hbase] at hvalue
  have hpop := emit_apply .pop ((t.past value.last (right.val :: rest)).append
    (value.lower blocks.flatten s.chunk.constants.size))
  rw [State.append_append] at hpop
  have hclose : expect .rightParen .parenAfterClauses
      ((t.past value.last (right.val :: rest)).append code) =
        .ok () ((t.past right.val rest).append code) :=
    expect_cons rfl .rightParen _ right.property
  have hdistance : start + (test + 3 + code.size) =
      ((t.past right.val rest).append code).chunk.size := by
    rw [State.chunk_append, State.chunk_past, Chunk.size_extend, hplace]
    omega
  have hback := yields_emitLoop hdistance
  -- the jump over the increment is completed last, and only then can the body follow
  have hpatch := yields_patchJump Chunk.isForward_jump s right.val rest (code ++ back)
  have hsize : (code ++ back).size = code.size + 3 := Lowering.size_append code back
  rw [← State.append_append, hsize, ← Lowering.append_assoc] at hpatch
  subst hcode
  unfold forIncrement
  rw [← hplace]
  refine Yields.congr ?_ (pieceFits_lowerIncrement rfl).symm
  refine Yields.after hopen (Yields.after (emitJump_apply .jump s) ?_ rfl) rfl
  refine Yields.after (codeSize_apply _) (hvalue.bind (fun _ => ?_) (fun _ => ?_) rfl) rfl
  · refine Yields.after hpop (Yields.after hclose ?_ rfl) rfl
    exact hback.bind (fun _ => hpatch.andThen rfl fun _ => respects_pure _)
      (fun _ => respects_bind (respects_patchJump _) fun _ => respects_pure _) rfl
  · refine respects_bind (respects_emit _) fun _ => ?_
    refine respects_bind (respects_expect _ _) fun _ => ?_
    refine respects_bind (respects_emitLoop _) fun _ => ?_
    refine respects_bind (respects_patchJump _) fun _ => ?_
    exact respects_pure _

/-- A round continues at the increment if there is one, and else at the test. -/
theorem yields_forIncrement {increment : Option Expr} (h : ∀ value ∈ increment, value.Grouped)
    {right : TokenOf .rightParen} {start : Nat} {test : Option Lowering}
    (hreading : Reading bound (.ofBlocks blocks) (optionalTokens increment ++ [right.val]) rest s)
    (hstart : start + testSize test = s.chunk.size) {step : Option Lowering}
    (hstep : step = increment.map (lowerDiscarded blocks.flatten s.chunk.constants.size)) :
    Yields (forIncrement bound start) s
      (s.chunk.size +
        (lowerIncrement s.cursor.previous.line right.val.line (testSize test) step).size -
        roundSize test step)
      ((s.past right.val rest).append
        (lowerIncrement s.cursor.previous.line right.val.line (testSize test) step))
      (PieceFits [] s.chunk.constants.size
        (lowerIncrement s.cursor.previous.line right.val.line (testSize test) step)) := by
  cases increment with
  | none =>
    subst hstep
    -- without increment a round goes back to the test, which ends here
    have hclose : accept .rightParen s = .ok true (s.past right.val rest) :=
      accept_cons hreading.ahead .rightParen right.property
    have hround : s.chunk.size - testSize test = start := by omega
    simp only [Option.map_none, lowerIncrement, roundSize, Lowering.size_empty, Nat.add_zero,
      State.append_empty, hround]
    unfold forIncrement
    exact Yields.congr (Yields.after hclose (yields_of_ok rfl) rfl)
      ⟨fun _ => ⟨scoped_nil, Lowering.limits_empty hreading.room⟩, fun _ => trivial⟩
  | some value =>
    obtain rfl : step = some _ := hstep
    rw [roundSize, size_lowerIncrement]
    -- with one, the increment is behind a jump of three bytes
    have hplace : ∀ size, s.chunk.size + (3 + size + 3) - (size + 3) = s.chunk.size + 3 := by omega
    rw [hplace]
    exact yields_increment (h value rfl) hreading hstart rfl

/-- What is compiled after the clauses of a loop. -/
theorem grows_rounds (bound continueAt : Nat) (leave : Option Nat) :
    Grows (do
      statement bound
      emitLoop continueAt
      loopEnd leave) := by
  refine respects_bind (respects_statement bound) fun _ => ?_
  refine respects_bind (respects_emitLoop continueAt) fun _ => ?_
  exact respects_loopEnd leave

/-- The rest of a loop after its test and its increment: the body, the jump back and the end. A
round continues `roundSize` bytes before the body. -/
theorem yields_loop {body : Stmt} (h : StmtCompiles body) (s : State) (last right : Token)
    (more : List Token) {test increment : Option Lowering} {leave continueAt : Nat}
    (hbound : body.tokens.length + rest.length ≤ bound) (hscope : s.scope = .ofBlocks blocks)
    (hopen : body.endsOpen = true → nextKind rest ≠ .elseKw) {step code : Lowering}
    (hstep : step = lowerIncrement last.line leave (testSize test) increment)
    (hcontinue : continueAt + roundSize test increment =
      s.chunk.size + testSize test + step.size) {base : Nat}
    (hbase : base = s.chunk.constants.size + constantCount test + step.constants.length)
    (hroom : base ≤ Chunk.maxConstants) (hcode : code = body.lower blocks base) :
    Yields (do
        statement bound
        emitLoop continueAt
        loopEnd (leaveJump s test))
      (((s.tested last more test).past right (body.tokens ++ rest)).append step) ()
      ((s.past body.last rest).append
        (lowerLoop test last.line increment leave code body.last.line))
      (PieceFits (body.locals blocks) base code ∧
        roundSize test increment + code.size + 3 ≤ maxDistance ∧
        (test.isSome → 1 + (step.size + code.size + 3) ≤ maxDistance)) := by
  let tested := s.tested last more test
  let back := jump .loop (roundSize test increment + code.size + 3) body.last.line
  -- the body starts where the test and the increment end, in the code and in the pool
  have hsize : ((tested.past right (body.tokens ++ rest)).append step).chunk.constants.size =
      base := by
    rw [State.chunk_append, State.chunk_past, Chunk.size_constants_extend, size_constants_tested,
      hbase]
  have hreading : Reading bound (.ofBlocks blocks) body.tokens rest
      ((tested.past right (body.tokens ++ rest)).append step) := by
    refine ⟨rfl, hbound, ?_, hsize ▸ hroom⟩
    rw [State.scope_append, State.scope_past, scope_tested, hscope]
  have hbody := h hreading hopen
  rw [hsize, ← hcode, State.past_append_past, State.append_append] at hbody
  -- the jump back skips the body and what stands between it and the place to go on at
  have hdistance : continueAt + (roundSize test increment + code.size) =
      ((tested.past body.last rest).append (step ++ code)).chunk.size := by
    rw [State.chunk_append, State.chunk_past, Chunk.size_extend, size_chunk_tested,
      Lowering.size_append]
    omega
  have hback := yields_emitLoop hdistance
  rw [State.append_append] at hback
  -- the jump out of the test is completed last, over everything behind it
  have hend := yields_loopEnd (s := s) test last body.last more rest (step ++ code ++ back)
  have hover : (step ++ code ++ back).size = step.size + code.size + 3 := by
    rw [Lowering.size_append, Lowering.size_append]
    rfl
  have hloop : lowerTest last.line (step.size + code.size + 3) test ++ (step ++ code ++ back) ++
      lowerExit body.last.line test =
        lowerLoop test last.line increment leave code body.last.line := by
    rw [lowerLoop, ← hstep]
    simp only [Lowering.append_assoc, back]
  rw [hover, hloop] at hend
  refine hbody.bind (fun _ => hback.bind (fun _ => hend) (fun _ => ?_) ?_) (fun _ => ?_) ?_
  · exact respects_loopEnd _
  · rfl
  · exact respects_bind (respects_emitLoop _) fun _ => respects_loopEnd _
  · rfl

/-- A `while` loop after its keyword. -/
theorem yields_whileStatement {c : Condition} {body : Stmt} (hc : c.value.Grouped)
    (hbody : StmtCompiles body)
    (hreading : Reading bound (.ofBlocks blocks) (c.tokens ++ body.tokens) rest s)
    (hopen : body.endsOpen = true → nextKind rest ≠ .elseKw) {test code : Lowering}
    (htest : test = c.value.lower blocks.flatten s.chunk.constants.size)
    (hcode : code = body.lower blocks (s.chunk.constants.size + test.constants.length)) :
    Yields (whileStatement bound (statement bound)) s ()
      ((s.past body.last rest).append
        (lowerLoop (some test) c.right.val.line none 0 code body.last.line))
      (PieceFits [] s.chunk.constants.size test ∧
        PieceFits (body.locals blocks) (s.chunk.constants.size + test.constants.length) code ∧
        test.size + 4 + code.size + 3 ≤ maxDistance ∧ 1 + (code.size + 3) ≤ maxDistance) := by
  have hcondition := yields_condition hc .parenAfterWhile hreading.left
  rw [← htest] at hcondition
  have hbound : body.tokens.length + rest.length ≤ bound := by
    have hbound := hreading.bound
    rw [List.length_append] at hbound
    omega
  -- a loop without increment goes on at its test
  have hstep : Lowering.empty = lowerIncrement c.right.val.line 0 (testSize (some test)) none := rfl
  have hcontinue : s.chunk.size + roundSize (some test) none =
      s.chunk.size + testSize (some test) + Lowering.empty.size := rfl
  have hloop (hroom : s.chunk.constants.size + test.constants.length ≤ Chunk.maxConstants) :=
    yields_loop hbody s c.right.val c.right.val (body.tokens ++ rest) hbound hreading.scope hopen
      hstep hcontinue rfl hroom hcode
  simp only [State.append_empty] at hloop
  have hfits :
      (PieceFits (body.locals blocks) (s.chunk.constants.size + test.constants.length) code ∧
      test.size + 4 + code.size + 3 ≤ maxDistance ∧
      ((some test).isSome → 1 + (Lowering.empty.size + code.size + 3) ≤ maxDistance)) ↔
      PieceFits (body.locals blocks) (s.chunk.constants.size + test.constants.length) code ∧
      test.size + 4 + code.size + 3 ≤ maxDistance ∧ 1 + (code.size + 3) ≤ maxDistance := by
    simp
  refine Yields.after (codeSize_apply s) (hcondition.bind (fun htests => ?_) (fun _ => ?_) rfl) rfl
  · exact Yields.after (emitJump_apply _ _) (Yields.after (emit_apply _ _)
      ((hloop htests.2.1).congr hfits) rfl) rfl
  · refine respects_bind (respects_emitJump _) fun done => ?_
    refine respects_bind (respects_emit _) fun _ => ?_
    exact grows_rounds bound _ (some done)

/-! ### The clauses of a `for` loop

Each clause ends with a token of its own, the last one with a parenthesis. -/

/-- The semicolon after the first clause. -/
def startEnd : ForStart → Token
  | .none semicolon => semicolon.val
  | .declaration _ declared => declared.semicolon.val
  | .expression _ semicolon => semicolon.val

/-- A declaration adds a local to the block of the loop. -/
theorem yields_forInitializer {start : ForStart} (h : start.Grouped)
    (hreading : Reading bound (.ofBlocks blocks) start.tokens rest s) :
    Yields (forInitializer bound) s ()
      (((s.past (startEnd start) rest).append (start.lower blocks s.chunk.constants.size)).within
        (start.blocks blocks))
      (PieceFits (start.locals blocks) s.chunk.constants.size
        (start.lower blocks s.chunk.constants.size)) := by
  have hscope := hreading.scope
  unfold forInitializer
  cases start with
  | none semicolon =>
    have haccept := accept_cons hreading.ahead .semicolon semicolon.property
    have hend : (s.past semicolon.val rest).within blocks = s.past semicolon.val rest :=
      State.within_of_scope hscope
    rw [ForStart.lower, ForStart.blocks, ForStart.locals, State.append_empty, startEnd, hend]
    exact Yields.congr (Yields.after haccept (yields_of_ok rfl) rfl)
      ⟨fun _ => ⟨scoped_nil, Lowering.limits_empty hreading.room⟩, fun _ => trivial⟩
  | declaration keyword declared =>
    have hahead : s.cursor.ahead = keyword.val :: (declared.tokens ++ rest) := hreading.ahead
    -- the first token decides between the three forms, and the semicolon is tried first
    have hsemicolon : accept .semicolon s = .ok false s := by
      refine accept_of_ne .semicolon ?_
      rw [hahead, nextKind_cons, keyword.property]
      decide
    have hdeclared : Reading bound (.ofBlocks blocks) declared.tokens rest
        (s.past keyword.val (declared.tokens ++ rest)) := by
      have hbound := hreading.bound
      rw [ForStart.tokens, List.length_cons] at hbound
      exact ⟨rfl, by omega, hscope, hreading.room⟩
    exact Yields.after hsemicolon (Yields.after (accept_cons hahead .varKw keyword.property)
      (yields_variableDeclaration h hdeclared) rfl) rfl
  | expression value semicolon =>
    have hahead : s.cursor.ahead = value.tokens ++ ([semicolon.val] ++ rest) := by
      rw [hreading.ahead, ForStart.tokens, List.append_assoc]
    have hvalue := yields_valueStatement h .semicolonAfterExpression .pop hreading
    have hsame : ∀ code : Lowering, ((s.past semicolon.val rest).append code).within blocks =
        (s.past semicolon.val rest).append code := fun code => State.within_of_scope hscope
    rw [ForStart.lower, ForStart.blocks, startEnd, hsame]
    exact Yields.after (accept_before_expression value .semicolon rfl hahead)
      (Yields.after (accept_before_expression value .varKw rfl hahead) hvalue rfl) rfl

@[simp] theorem cursor_tested (s : State) (last : Token) (rest : List Token)
    (test : Option Lowering) : (s.tested last rest test).cursor = ⟨last, rest⟩ := by
  cases test <;> rfl

/-- The second clause of a `for` loop. -/
theorem yields_forCondition {condition : Option Expr} (h : ∀ value ∈ condition, value.Grouped)
    {semicolon : TokenOf .semicolon}
    (hreading :
      Reading bound (.ofBlocks blocks) (optionalTokens condition ++ [semicolon.val]) rest s)
    {test : Option Lowering}
    (htest : test = condition.map (·.lower blocks.flatten s.chunk.constants.size)) :
    Yields (forCondition bound) s (leaveJump s test) (s.tested semicolon.val rest test)
      (∀ code ∈ test, PieceFits [] s.chunk.constants.size code) := by
  unfold forCondition
  cases condition with
  | none =>
    subst htest
    have haccept := accept_cons hreading.ahead .semicolon semicolon.property
    exact Yields.congr (Yields.after haccept (yields_of_ok rfl) rfl)
      ⟨fun _ _ => (nomatch ·), fun _ => trivial⟩
  | some value =>
    obtain rfl : test = some (value.lower blocks.flatten s.chunk.constants.size) := htest
    have hvalue := yields_expression (h value rfl) hreading.left (ends_semicolon semicolon rest)
    -- no expression starts with a semicolon
    have hnone := accept_before_expression value .semicolon rfl hreading.left.ahead
    refine Yields.congr (Yields.after hnone (hvalue.andThen ?_ fun _ => ?_) rfl) ?_
    · rw [bind_of_ok (expect_cons rfl .semicolon _ semicolon.property),
        bind_of_ok (emitJump_apply _ _), bind_of_ok (emit_apply _ _)]
      rfl
    · refine respects_bind (respects_expect _ _) fun _ => ?_
      refine respects_bind (respects_emitJump _) fun done => ?_
      refine respects_bind (respects_emit _) fun _ => ?_
      exact respects_pure (some done)
    · simp

/-- The constants of a test that fits leave the pool within its limits. -/
theorem room_after_test {base : Nat} (hroom : base ≤ Chunk.maxConstants) {test : Option Lowering}
    (h : ∀ code ∈ test, PieceFits [] base code) :
    base + constantCount test ≤ Chunk.maxConstants := by
  cases test with
  | none => exact hroom
  | some code => exact (h code rfl).2.1

/-- The rest of a `for` loop after its first clause. -/
theorem yields_forRest {condition increment : Option Expr} {body : Stmt}
    (hcondition : ∀ value ∈ condition, value.Grouped)
    (hincrement : ∀ value ∈ increment, value.Grouped) (hbody : StmtCompiles body)
    {semicolon : TokenOf .semicolon} {right : TokenOf .rightParen}
    (hreading : Reading bound (.ofBlocks blocks) (optionalTokens condition ++ [semicolon.val] ++
      (optionalTokens increment ++ [right.val] ++ body.tokens)) rest s)
    (hopen : body.endsOpen = true → nextKind rest ≠ .elseKw)
    {test step : Option Lowering} {code : Lowering}
    (htest : test = condition.map (·.lower blocks.flatten s.chunk.constants.size))
    (hstep : step = increment.map
      (lowerDiscarded blocks.flatten (s.chunk.constants.size + constantCount test)))
    (hcode : code = body.lower blocks
      (s.chunk.constants.size + constantCount test + constantCount step)) :
    Yields (do
        let start ← codeSize
        let leave ← forCondition bound
        let continueAt ← forIncrement bound start
        statement bound
        emitLoop continueAt
        loopEnd leave) s ()
      ((s.past body.last rest).append
        (lowerLoop test semicolon.val.line step right.val.line code body.last.line))
      ((∀ x ∈ test, PieceFits [] s.chunk.constants.size x) ∧
        PieceFits [] (s.chunk.constants.size + constantCount test)
          (lowerIncrement semicolon.val.line right.val.line (testSize test) step) ∧
        PieceFits (body.locals blocks)
          (s.chunk.constants.size + constantCount test + constantCount step) code ∧
        roundSize test step + code.size + 3 ≤ maxDistance ∧
        (test.isSome → 1 + ((lowerIncrement semicolon.val.line right.val.line (testSize test)
          step).size + code.size + 3) ≤ maxDistance)) := by
  let back := lowerIncrement semicolon.val.line right.val.line (testSize test) step
  let more := optionalTokens increment ++ [right.val] ++ body.tokens ++ rest
  let tested := s.tested semicolon.val more test
  -- each clause is compiled in the state that the clauses before it have left
  have hsize : tested.chunk.constants.size = s.chunk.constants.size + constantCount test :=
    size_constants_tested ..
  have hbound := hreading.bound
  simp only [List.length_append] at hbound
  have hclauses (hroom : tested.chunk.constants.size ≤ Chunk.maxConstants) :
      Yields (forIncrement bound s.chunk.size) tested
        (tested.chunk.size + back.size - roundSize test step)
        ((tested.past right.val (body.tokens ++ rest)).append back)
        (PieceFits [] (s.chunk.constants.size + constantCount test) back) := by
    have hahead : Reading bound (.ofBlocks blocks) (optionalTokens increment ++ [right.val])
        (body.tokens ++ rest) tested := by
      refine ⟨?_, ?_, ?_, hroom⟩
      · simp only [tested, more, cursor_tested, List.append_assoc]
      · simp only [List.length_append]
        omega
      · rw [scope_tested, hreading.scope]
    have hyields := yields_forIncrement hincrement hahead
      (size_chunk_tested s semicolon.val more test).symm (hsize ▸ hstep)
    rw [cursor_tested, hsize] at hyields
    exact hyields
  -- no subtraction is cut off: what a round repeats is part of the test and the increment
  have hcontinue : tested.chunk.size + back.size - roundSize test step + roundSize test step =
      s.chunk.size + testSize test + back.size := by
    have hle : roundSize test step ≤ testSize test + back.size := roundSize_le ..
    rw [size_chunk_tested]
    exact Nat.sub_add_cancel (by omega)
  have hbase : s.chunk.constants.size + constantCount test + constantCount step =
      s.chunk.constants.size + constantCount test + back.constants.length := by
    rw [length_constants_lowerIncrement]
  have hlength : body.tokens.length + rest.length ≤ bound := by omega
  have hrounds (hroom : _ ≤ Chunk.maxConstants) := yields_loop hbody s semicolon.val right.val
    more hlength hreading.scope hopen rfl hcontinue hbase hroom hcode
  have htests := yields_forCondition hcondition hreading.left htest
  refine Yields.after (codeSize_apply s)
    (htests.bind (fun htestFits => ?_) (fun _ => ?_) (errors_tested ..)) rfl
  · -- the pool has room for the increment if it has for the test, and then for the body
    refine (hclauses ?_).bind (fun hstepFits => ?_) (fun _ => grows_rounds _ _ _) rfl
    · rw [hsize]
      exact room_after_test hreading.room htestFits
    · exact hrounds (hbase ▸ hstepFits.2.1)
  · exact respects_bind (respects_forIncrement _ _) fun _ => grows_rounds _ _ _

/-- The clauses of a `for` loop and its body, in the blocks of the loop. -/
theorem yields_forStatement {c : ForClauses} {body : Stmt} (hc : c.Grouped)
    (hbody : StmtCompiles body)
    (hreading : Reading bound (.ofBlocks blocks) (c.tokens ++ body.tokens) rest s)
    (hopen : body.endsOpen = true → nextKind rest ≠ .elseKw)
    {start code : Lowering} {inner : Blocks} {test increment : Option Lowering} {base : Nat}
    (hstart : start = c.start.lower blocks s.chunk.constants.size)
    (hinner : inner = c.start.blocks blocks)
    (htest : test = c.condition.map
      (·.lower inner.flatten (s.chunk.constants.size + start.constants.length)))
    (hincrement : increment = c.increment.map (lowerDiscarded inner.flatten
      (s.chunk.constants.size + start.constants.length + constantCount test)))
    (hbase : base = s.chunk.constants.size + start.constants.length + constantCount test +
      constantCount increment)
    (hcode : code = body.lower inner base) :
    Yields (forStatement bound (statement bound)) s ()
      (((s.past body.last rest).append (start ++ lowerLoop test c.semicolon.val.line increment
        c.right.val.line code body.last.line)).within inner)
      (PieceFits (c.start.locals blocks) s.chunk.constants.size start ∧
        (∀ x ∈ test, PieceFits [] (s.chunk.constants.size + start.constants.length) x) ∧
        PieceFits [] (s.chunk.constants.size + start.constants.length + constantCount test)
          (lowerIncrement c.semicolon.val.line c.right.val.line (testSize test) increment) ∧
        PieceFits (body.locals inner) base code ∧
        roundSize test increment + code.size + 3 ≤ maxDistance ∧
        (test.isSome → 1 + ((lowerIncrement c.semicolon.val.line c.right.val.line (testSize test)
          increment).size + code.size + 3) ≤ maxDistance)) := by
  obtain ⟨hstartGrouped, hconditionGrouped, hincrementGrouped⟩ := hc
  let clauses := optionalTokens c.condition ++ [c.semicolon.val] ++
    (optionalTokens c.increment ++ [c.right.val] ++ body.tokens)
  let started := ((s.past (startEnd c.start) (clauses ++ rest)).append start).within inner
  have hahead : s.cursor.ahead = c.left.val :: (c.start.tokens ++ (clauses ++ rest)) := by
    rw [hreading.ahead]
    simp [ForClauses.tokens, clauses]
  have hbound : c.start.tokens.length + (clauses ++ rest).length ≤ bound := by
    have hbound := hreading.bound
    rw [← List.length_append, ← hreading.ahead, hahead, List.length_cons] at hbound
    rw [← List.length_append]
    omega
  -- the first clause may declare a local, and the others are compiled with it in scope
  have hinitializer :
      Yields (forInitializer bound) (s.past c.left.val (c.start.tokens ++ (clauses ++ rest))) ()
        started (PieceFits (c.start.locals blocks) s.chunk.constants.size start) := by
    have hyields := yields_forInitializer hstartGrouped
      (s := s.past c.left.val (c.start.tokens ++ (clauses ++ rest)))
      ⟨rfl, hbound, hreading.scope, hreading.room⟩
    subst hstart hinner
    exact hyields
  have hstarted : started.chunk.constants.size =
      s.chunk.constants.size + start.constants.length := by
    simp [started]
  have hrest (hroom : started.chunk.constants.size ≤ Chunk.maxConstants) :
      Reading bound (.ofBlocks inner) clauses rest started := by
    refine ⟨rfl, ?_, rfl, hroom⟩
    rw [List.length_append] at hbound
    omega
  -- the code of the first clause and that of the loop are appended one after the other
  have hend : ((s.past body.last rest).append (start ++ lowerLoop test c.semicolon.val.line
      increment c.right.val.line code body.last.line)).within inner =
        (started.past body.last rest).append (lowerLoop test c.semicolon.val.line increment
          c.right.val.line code body.last.line) := by
    rw [← State.append_append]
    rfl
  rw [hend]
  refine Yields.after (expect_cons hahead .leftParen _ c.left.property)
    (hinitializer.bind (fun hstartFits => ?_) (fun _ => ?_) rfl) rfl
  · have hroom := hstartFits.2.1
    subst hbase
    rw [← hstarted] at hroom htest hincrement hcode ⊢
    exact yields_forRest hconditionGrouped hincrementGrouped hbody (hrest hroom) hopen htest
      hincrement hcode
  · refine respects_bind respects_codeSize fun start => ?_
    refine respects_bind (respects_forCondition bound) fun leave => ?_
    refine respects_bind (respects_forIncrement bound start) fun continueAt => ?_
    exact grows_rounds bound continueAt leave

end Loops

end Compile

end StackScript
