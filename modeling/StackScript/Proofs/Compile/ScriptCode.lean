import StackScript.Proofs.Compile.StatementCode

/-!
# The code of a script

The pieces of `StatementCode` put together by induction on the tree: every grouped statement and
every grouped list of declarations compiles to its code (**`stmtCompiles_of_grouped`**,
**`declsCompiles_of_grouped`**), and so does a whole script (**`yields_program`**).
-/

namespace StackScript

open Lowering (instruction instructions pool jump)

open StackScript.Tree

namespace Compile

/-! ## Blocks

A block is compiled with one more list of names in front, which are dropped at its end. -/

/-- There is one pop for each local of the block. -/
theorem closeBlock_apply {s : State} {block : List String} {outer : Blocks}
    (h : s.scope = .ofBlocks (block :: outer)) :
    closeBlock s =
      .ok () ((s.within outer).append (dropLocals block.length s.cursor.previous.line)) := by
  have hget : (get : CompileM State) s = .ok s s := rfl
  have hcount : s.scope.locals.length - s.scope.endBlock.locals.length = block.length := by
    rw [h, Scope.endBlock_ofBlocks]
    simp [Scope.ofBlocks]
  have hmodify : (modify fun t => { t with scope := s.scope.endBlock } : CompileM Unit) s =
      .ok () (s.within outer) := by
    rw [h, Scope.endBlock_ofBlocks]
    rfl
  rw [closeBlock, bind_of_ok hget, bind_of_ok hmodify, hcount, forM_emit_apply]
  rfl

/-- A step in a block of its own; the locals that it leaves are dropped at the end. -/
theorem yields_inBlock {body : CompileM Unit} {s : State} {blocks : Blocks} {block : List String}
    {last : Token} {rest : List Token} {code : Lowering} {P : Prop}
    (hscope : s.scope = .ofBlocks blocks)
    (h : Yields body (s.within ([] :: blocks)) ()
      ((((s.within ([] :: blocks)).past last rest).append code).within (block :: blocks)) P) :
    Yields (inBlock body) s ()
      ((s.past last rest).append (code ++ dropLocals block.length last.line)) P := by
  have hbegin : (modify fun s => { s with scope := s.scope.beginBlock } : CompileM Unit) s =
      .ok () (s.within ([] :: blocks)) := by
    rw [State.within, ← Scope.beginBlock_ofBlocks, ← hscope]
    rfl
  have hsame : ∀ code : Lowering, ((s.past last rest).append code).within blocks =
      (s.past last rest).append code := fun code => State.within_of_scope hscope
  let t := (((s.within ([] :: blocks)).past last rest).append code).within (block :: blocks)
  have hclose := closeBlock_apply (rfl : t.scope = .ofBlocks (block :: blocks))
  rw [inBlock_eq]
  refine Yields.after hbegin (h.settled (hclose.trans ?_) settles_closeBlock) rfl
  rw [← State.append_append, ← hsame code]
  rfl

/-! ## Lists of declarations

The loop over declarations goes on until it sees a token that cannot start one, and each declaration
finds the blocks that the ones before it have left. -/

/-- The token after a statement in a list of declarations is never an `else`. -/
theorem nextKind_decls_ne_else {ds : Decls} {rest : List Token} (h : nextKind rest ≠ .elseKw) :
    nextKind (ds.tokens ++ rest) ≠ .elseKw := by
  cases ds with
  | nil => exact h
  | declaration keyword declared ds =>
    have hkind : nextKind ((Decls.declaration keyword declared ds).tokens ++ rest) = .varKw :=
      keyword.property
    rw [hkind]
    decide
  | statement first ds =>
    obtain ⟨token, others, htokens, hopens⟩ := first.tokens_eq_cons
    rw [Decls.tokens, htokens, List.append_assoc, List.cons_append, nextKind_cons]
    intro heq
    rw [heq] at hopens
    cases hopens

/-- A list of declarations compiles to its code where something follows that ends such a list. -/
def DeclsCompiles (ds : Decls) : Prop :=
  ∀ ⦃bound count blocks rest s⦄ ⦃stop : Kind → Bool⦄,
    (∀ kind, stop kind = true → kind = .rightBrace ∨ kind = .eof) →
    Reading bound (.ofBlocks blocks) ds.tokens rest s → ds.tokens.length ≤ count →
    stop (nextKind rest) = true →
    Yields (repeatUntil stop (declaration bound (statement bound)) count) s ()
      (((s.past (ds.lastAfter s.cursor.previous) rest).append
        (ds.lower blocks s.chunk.constants.size)).within (ds.blocks blocks))
      (PieceFits (ds.locals blocks) s.chunk.constants.size
        (ds.lower blocks s.chunk.constants.size))

theorem repeatUntil_of_stop {stop : Kind → Bool} {step : CompileM Unit} {s : State}
    (h : stop (nextKind s.cursor.ahead) = true) (count : Nat) :
    repeatUntil stop step count s = .ok () s := by
  cases count with
  | zero => rfl
  | succ count =>
    rw [repeatUntil, bind_of_ok (current_apply s), current_kind, if_pos h]
    rfl

theorem repeatUntil_succ {stop : Kind → Bool} {step : CompileM Unit} {s : State}
    (h : stop (nextKind s.cursor.ahead) = false) (count : Nat) :
    repeatUntil stop step (count + 1) s =
      (step >>= fun _ => repeatUntil stop step count) s := by
  rw [repeatUntil, bind_of_ok (current_apply s), current_kind, if_neg (by rw [h]; decide)]

/-- Nothing is compiled where the loop stops at once. -/
theorem declsCompiles_nil : DeclsCompiles .nil := by
  intro bound count blocks rest s stop _ hreading _ hstop
  have hahead : s.cursor.ahead = rest := hreading.ahead
  have hcursor : s.cursor = ⟨s.cursor.previous, rest⟩ := by rw [← hahead]
  rw [Decls.lastAfter, Decls.lower, Decls.blocks, Decls.locals, State.past_of_cursor hcursor,
    State.append_empty, State.within_of_scope hreading.scope]
  exact (yields_of_ok (repeatUntil_of_stop (hahead ▸ hstop) count)).congr
    ⟨fun _ => ⟨scoped_nil, Lowering.limits_empty hreading.room⟩, fun _ => trivial⟩

section Declarations

variable {bound : Nat} {blocks : Blocks} {rest : List Token} {s : State} {stop : Kind → Bool}

/-- One round of the loop over declarations, and the rest of the list. -/
theorem yields_declarations {ds : Decls} (h : DeclsCompiles ds) {count : Nat} {inner : Blocks}
    {last : Token} {locals : List (Blocks × VarDecl)} {code : Lowering}
    (hfirst : Yields (declaration bound (statement bound)) s ()
      (((s.past last (ds.tokens ++ rest)).append code).within inner)
      (PieceFits locals s.chunk.constants.size code))
    (hgo : stop (nextKind s.cursor.ahead) = false)
    (hends : ∀ kind, stop kind = true → kind = .rightBrace ∨ kind = .eof)
    (hbound : ds.tokens.length + rest.length ≤ bound) (hcount : ds.tokens.length ≤ count)
    (hstop : stop (nextKind rest) = true) {more : Lowering}
    (hmore : more = ds.lower inner (s.chunk.constants.size + code.constants.length)) :
    Yields (repeatUntil stop (declaration bound (statement bound)) (count + 1)) s ()
      (((s.past (ds.lastAfter last) rest).append (code ++ more)).within (ds.blocks inner))
      (PieceFits (locals ++ ds.locals inner) s.chunk.constants.size (code ++ more)) := by
  -- the state between the first declaration and the others
  let t := ((s.past last (ds.tokens ++ rest)).append code).within inner
  have hsize : t.chunk.constants.size = s.chunk.constants.size + code.constants.length := by
    simp [t]
  have hrest (hroom : s.chunk.constants.size + code.constants.length ≤ Chunk.maxConstants) :
      Yields (repeatUntil stop (declaration bound (statement bound)) count) t ()
        (((s.past (ds.lastAfter last) rest).append (code ++ more)).within (ds.blocks inner))
        (PieceFits (ds.locals inner) (s.chunk.constants.size + code.constants.length) more) := by
    have hreading : Reading bound (.ofBlocks inner) ds.tokens rest t :=
      ⟨rfl, hbound, rfl, hsize ▸ hroom⟩
    have hyields := h hends hreading hcount hstop
    rw [hsize, ← hmore] at hyields
    rw [← State.append_append]
    exact hyields
  -- if the first declaration is rejected, the others do not hide its error
  have hgrows : Grows (repeatUntil stop (declaration bound (statement bound)) count) :=
    respects_repeatUntil stop (respects_declaration bound (respects_statement bound)) count
  exact (Yields.of_eq (hfirst.bind (fun hfits => hrest hfits.2.1) (fun _ => hgrows) rfl)
    (repeatUntil_succ hgo count) rfl).congr pieceFits_append.symm

theorem declsCompiles_declaration {keyword : TokenOf .varKw} {declared : VarDecl} {ds : Decls}
    (hdeclared : declared.Grouped) (h : DeclsCompiles ds) :
    DeclsCompiles (.declaration keyword declared ds) := by
  intro bound count blocks rest s stop hends hreading hcount hstop
  have hahead : s.cursor.ahead = keyword.val :: (declared.tokens ++ (ds.tokens ++ rest)) := by
    rw [hreading.ahead]
    simp [Decls.tokens]
  have hbound := hreading.bound
  simp only [Decls.tokens, List.length_cons, List.length_append] at hbound hcount
  obtain ⟨count, rfl⟩ : ∃ c, count = c + 1 := ⟨count - 1, by omega⟩
  -- the loop does not stop before the keyword
  have hgo : stop (nextKind s.cursor.ahead) = false := by
    rw [hahead, nextKind_cons, keyword.property, ← Bool.not_eq_true]
    intro hstopped
    rcases hends _ hstopped with hkind | hkind <;> cases hkind
  have hvar : Reading bound (.ofBlocks blocks) declared.tokens (ds.tokens ++ rest)
      (s.past keyword.val (declared.tokens ++ (ds.tokens ++ rest))) := by
    refine ⟨rfl, ?_, hreading.scope, hreading.room⟩
    rw [List.length_append]
    omega
  have hfirst : Yields (declaration bound (statement bound)) s ()
      (((s.past declared.semicolon.val (ds.tokens ++ rest)).append
        (declared.lower blocks s.chunk.constants.size)).within
          (blocks.declare declared.name.val.lexeme))
      (PieceFits (declared.locals blocks) s.chunk.constants.size
        (declared.lower blocks s.chunk.constants.size)) := by
    exact Yields.recovering (Yields.after (accept_cons hahead .varKw keyword.property)
      (yields_variableDeclaration hdeclared hvar) rfl)
  exact yields_declarations h hfirst hgo hends (by omega) (by omega) hstop rfl

theorem declsCompiles_statement {first : Stmt} {ds : Decls} (hfirst : StmtCompiles first)
    (h : DeclsCompiles ds) : DeclsCompiles (.statement first ds) := by
  intro bound count blocks rest s stop hends hreading hcount hstop
  obtain ⟨token, others, htokens, hopens⟩ := first.tokens_eq_cons
  have hahead : s.cursor.ahead = first.tokens ++ (ds.tokens ++ rest) := by
    rw [hreading.ahead]
    simp [Decls.tokens]
  have hkind : nextKind s.cursor.ahead = token.kind := by
    rw [hahead, htokens]
    rfl
  have hlength : first.tokens.length = others.length + 1 := by
    rw [htokens, List.length_cons]
  have hbound := hreading.bound
  simp only [Decls.tokens, List.length_append] at hbound hcount
  obtain ⟨count, rfl⟩ : ∃ c, count = c + 1 := ⟨count - 1, by omega⟩
  have hgo : stop (nextKind s.cursor.ahead) = false := by
    rw [hkind, ← Bool.not_eq_true]
    intro hstopped
    rcases hends _ hstopped with heq | heq <;> rw [heq] at hopens <;> cases hopens
  have hnovar : accept .varKw s = .ok false s := by
    refine accept_of_ne .varKw fun heq => ?_
    rw [hkind] at heq
    rw [heq] at hopens
    cases hopens
  -- what follows a statement in a list is never an `else`
  have hnoelse : nextKind (ds.tokens ++ rest) ≠ .elseKw := by
    refine nextKind_decls_ne_else fun heq => ?_
    rcases hends _ hstop with hend | hend <;> rw [hend] at heq <;> cases heq
  have hstmt : Reading bound (.ofBlocks blocks) first.tokens (ds.tokens ++ rest) s := by
    refine ⟨hahead, ?_, hreading.scope, hreading.room⟩
    rw [List.length_append]
    omega
  have hsame : ∀ code : Lowering, ((s.past first.last (ds.tokens ++ rest)).append code).within
      blocks = (s.past first.last (ds.tokens ++ rest)).append code :=
    fun code => State.within_of_scope hreading.scope
  have hfirst : Yields (declaration bound (statement bound)) s ()
      (((s.past first.last (ds.tokens ++ rest)).append
        (first.lower blocks s.chunk.constants.size)).within blocks)
      (PieceFits (first.locals blocks) s.chunk.constants.size
        (first.lower blocks s.chunk.constants.size)) := by
    rw [hsame]
    exact Yields.recovering (Yields.after hnovar (hfirst hstmt fun _ => hnoelse) rfl)
  exact yields_declarations h hfirst hgo hends (by omega) (by omega) hstop rfl

end Declarations

/-! ## Statements of every form

One lemma for each constructor of the statements, with what is known of the parts as a hypothesis.
-/

section Statements

variable {bound : Nat} {scope : Scope} {token : Token} {tokens rest : List Token} {s : State}

/-- The bound allows for one token at least. -/
theorem Reading.bound_eq_succ (h : Reading bound scope (token :: tokens) rest s) :
    ∃ b, bound = b + 1 := by
  have hbound := h.bound
  rw [List.length_cons] at hbound
  exact ⟨bound - 1, by omega⟩

/-- After the first token the others are read, with a smaller bound. -/
theorem Reading.tail (h : Reading (bound + 1) scope (token :: tokens) rest s) :
    Reading bound scope tokens rest (s.past token (tokens ++ rest)) := by
  have hbound := h.bound
  rw [List.length_cons] at hbound
  exact ⟨rfl, by omega, h.scope, h.room⟩

/-- How a statement is compiled that starts with a token of the given kind. -/
def statementFrom (bound : Nat) : Kind → CompileM Unit
  | .printKw => do advance; printStatement bound
  | .forKw => do advance; inBlock (forStatement bound (statement bound))
  | .ifKw => do advance; ifStatement bound (statement bound)
  | .whileKw => do advance; whileStatement bound (statement bound)
  | .leftBrace => do advance; inBlock (block bound (statement bound))
  | _ => expressionStatement (bound + 1)

/-- The first token says which form of statement it is. -/
theorem statement_apply (bound : Nat) (s : State) :
    statement (bound + 1) s = statementFrom bound (nextKind s.cursor.ahead) s := by
  rw [← current_kind, statement]
  exact bind_of_ok (current_apply s)

/-- After its first token a statement goes on as the token says. -/
theorem statement_of_keyword {more : CompileM Unit}
    (h : Reading (bound + 1) scope (token :: tokens) rest s)
    (hmore : statementFrom bound token.kind = (do advance; more)) :
    statement (bound + 1) s = more (s.past token (tokens ++ rest)) := by
  rw [statement_apply, h.ahead, List.cons_append, nextKind_cons, hmore]
  exact bind_of_ok (advance_cons h.ahead)

end Statements

theorem stmtCompiles_print {keyword : TokenOf .printKw} {value : Expr}
    {semicolon : TokenOf .semicolon} (h : value.Grouped) :
    StmtCompiles (.print keyword value semicolon) := by
  intro bound blocks rest s hreading _
  obtain ⟨bound, rfl⟩ := hreading.bound_eq_succ
  have hstatement : statement (bound + 1) s =
      printStatement bound (s.past keyword.val (value.tokens ++ [semicolon.val] ++ rest)) :=
    statement_of_keyword hreading (by rw [keyword.property]; rfl)
  exact (yields_valueStatement h _ .print hreading.tail).of_eq hstatement rfl

theorem stmtCompiles_expression {value : Expr} {semicolon : TokenOf .semicolon}
    (h : value.Grouped) : StmtCompiles (.expression value semicolon) := by
  intro bound blocks rest s hreading _
  obtain ⟨token, more, htokens, hform⟩ := value.tokens_eq_cons
  have hahead := hreading.ahead
  have hstatement : statement bound s = expressionStatement bound s := by
    cases bound with
    | zero => rfl
    | succ bound =>
      rw [statement_apply, hahead, Stmt.tokens, htokens, List.cons_append, List.cons_append,
        nextKind_cons]
      -- a token that starts an expression is none of the five others
      cases hkind : token.kind <;> rw [hkind] at hform <;> first | rfl | cases hform
  exact (yields_valueStatement h _ .pop hreading).of_eq hstatement rfl

/-- The limits of a conditional, part by part. -/
theorem pieceFits_conditional {bodyLocals elseLocals : List (Blocks × VarDecl)}
    {base line between : Nat} {test first second : Lowering} :
    PieceFits (bodyLocals ++ elseLocals) base
      (test ++ lowerBranches line first between second) ↔
      PieceFits [] base test ∧ PieceFits bodyLocals (base + test.constants.length) first ∧
        first.size + 3 ≤ maxDistance ∧
        PieceFits elseLocals (base + test.constants.length + first.constants.length) second ∧
        second.size ≤ maxDistance := by
  rw [PieceFits, scoped_append, Lowering.limits_append, limits_lowerBranches]
  constructor
  · rintro ⟨⟨hbodyScoped, helseScoped⟩, htest, hfirst, hover, hsecond, hpast⟩
    exact ⟨⟨scoped_nil, htest⟩, ⟨hbodyScoped, hfirst⟩, hover, ⟨helseScoped, hsecond⟩, hpast⟩
  · rintro ⟨⟨_, htest⟩, ⟨hbodyScoped, hfirst⟩, hover, ⟨helseScoped, hsecond⟩, hpast⟩
    exact ⟨⟨hbodyScoped, helseScoped⟩, htest, hfirst, hover, hsecond, hpast⟩

/-- Condition, jump and both branches. That the `else` belongs to this `if` is what `hafter` says.
-/
theorem stmtCompiles_conditional {keyword : TokenOf .ifKw} {c : Condition} {body : Stmt}
    {otherwise : Else} (hc : c.value.Grouped) (hbody : StmtCompiles body)
    (helse : ElseCompiles otherwise) (hafter : otherwise.GroupedAfter body.endsOpen) :
    StmtCompiles (.conditional keyword c body otherwise) := by
  intro bound blocks rest s hreading hopen
  obtain ⟨bound, rfl⟩ := hreading.bound_eq_succ
  -- a first branch that could take an `else` is never followed by one
  have hfirstOpen : body.endsOpen = true → nextKind (otherwise.tokens ++ rest) ≠ .elseKw := by
    intro hbodyOpen
    cases otherwise with
    | none => exact hopen rfl
    | branch elseKeyword other =>
      rw [hafter.1] at hbodyOpen
      cases hbodyOpen
  have htail := hreading.tail
  have hstatement : statement (bound + 1) s = ifStatement bound (statement bound)
      (s.past keyword.val (c.tokens ++ (body.tokens ++ otherwise.tokens) ++ rest)) :=
    statement_of_keyword hreading (by rw [keyword.property]; rfl)
  let test := c.value.lower blocks.flatten s.chunk.constants.size
  let decided := (s.past c.right.val (body.tokens ++ otherwise.tokens ++ rest)).append test
  let first := instruction .pop c.right.val.line ++
    body.lower blocks (s.chunk.constants.size + test.constants.length)
  let second := instruction .pop body.last.line ++
    otherwise.lower blocks (s.chunk.constants.size + test.constants.length + first.constants.length)
  have hsize : decided.chunk.constants.size =
      s.chunk.constants.size + test.constants.length := by
    simp [decided]
  have hfirstCode : first = instruction .pop decided.cursor.previous.line ++
      body.lower blocks decided.chunk.constants.size := by
    rw [hsize]
    rfl
  have hsecondCode : second = instruction .pop body.last.line ++
      otherwise.lower blocks (decided.chunk.constants.size + first.constants.length) := by
    rw [hsize]
  have hcondition : Yields (condition bound .parenAfterIf)
      (s.past keyword.val (c.tokens ++ (body.tokens ++ otherwise.tokens) ++ rest)) () decided
      (PieceFits [] s.chunk.constants.size test) := yields_condition hc .parenAfterIf htail.left
  have hbranches (hroom : s.chunk.constants.size + test.constants.length ≤ Chunk.maxConstants) := by
    have hdecided :
        Reading bound (.ofBlocks blocks) (body.tokens ++ otherwise.tokens) rest decided :=
      htail.right c.right.val hroom
    have hyields :=
      yields_branches hbody helse hdecided hfirstOpen hopen hfirstCode hsecondCode
    rw [hsize] at hyields
    exact hyields
  have hend : (s.past (otherwise.lastAfter body.last) rest).append
      (test ++ lowerBranches c.right.val.line first body.last.line second) =
        (decided.past (otherwise.lastAfter body.last) rest).append
          (lowerBranches c.right.val.line first body.last.line second) := by
    rw [← State.append_append]
    rfl
  have hlower : (Stmt.conditional keyword c body otherwise).lower blocks s.chunk.constants.size =
      test ++ lowerBranches c.right.val.line first body.last.line second := by
    rw [Stmt.lower]
  rw [Stmt.last, hlower, Stmt.locals]
  refine Yields.of_eq (Yields.congr ?_ pieceFits_conditional.symm) hstatement rfl
  rw [hend, ifStatement_eq]
  refine hcondition.bind (fun htest => hbranches htest.2.1) (fun _ => ?_) rfl
  have hbranch : Grows (do emit .pop; statement bound) :=
    respects_bind (respects_emit _) fun _ => respects_statement bound
  refine respects_bind (respects_emitJump _) fun otherwise => ?_
  refine respects_bind hbranch fun _ => ?_
  exact grows_afterFirst bound otherwise

/-- The limits of a `while` loop, part by part. -/
theorem pieceFits_whileLoop {locals : List (Blocks × VarDecl)} {base enter leave line : Nat}
    {test code : Lowering} (hroom : base ≤ Chunk.maxConstants) :
    PieceFits locals base (lowerLoop (some test) enter none leave code line) ↔
      PieceFits [] base test ∧ PieceFits locals (base + test.constants.length) code ∧
        test.size + 4 + code.size + 3 ≤ maxDistance ∧ 1 + (code.size + 3) ≤ maxDistance := by
  rw [PieceFits, limits_lowerLoop hroom]
  simp only [Option.mem_some_iff, forall_eq', constantCount, Nat.add_zero, roundSize, testSize,
    Option.isSome_some, forall_const, lowerIncrement, Lowering.size_empty, Nat.zero_add]
  constructor
  · rintro ⟨hscoped, htest, _, hbody, hround, hexit⟩
    exact ⟨⟨scoped_nil, htest⟩, ⟨hscoped, hbody⟩, hround, hexit⟩
  · rintro ⟨⟨_, htest⟩, ⟨hscoped, hbody⟩, hround, hexit⟩
    exact ⟨hscoped, htest, Lowering.limits_empty htest.1, hbody, hround, hexit⟩

/-- A loop with a test and without an increment. -/
theorem stmtCompiles_whileLoop {keyword : TokenOf .whileKw} {c : Condition} {body : Stmt}
    (hc : c.value.Grouped) (hbody : StmtCompiles body) :
    StmtCompiles (.whileLoop keyword c body) := by
  intro bound blocks rest s hreading hopen
  obtain ⟨bound, rfl⟩ := hreading.bound_eq_succ
  have hstatement : statement (bound + 1) s = whileStatement bound (statement bound)
      (s.past keyword.val (c.tokens ++ body.tokens ++ rest)) :=
    statement_of_keyword hreading (by rw [keyword.property]; rfl)
  have hyields := yields_whileStatement hc hbody hreading.tail hopen rfl rfl
  rw [Stmt.last, Stmt.lower, Stmt.locals]
  exact (hyields.congr (pieceFits_whileLoop hreading.room).symm).of_eq hstatement rfl

/-- The limits of a `for` loop, clause by clause. -/
theorem pieceFits_forLoop {startLocals bodyLocals : List (Blocks × VarDecl)} {base count : Nat}
    {enter leave line : Nat} {start code : Lowering} {test increment : Option Lowering} :
    PieceFits (startLocals ++ bodyLocals) base
      (start ++ lowerLoop test enter increment leave code line ++ dropLocals count line) ↔
      PieceFits startLocals base start ∧
      (∀ x ∈ test, PieceFits [] (base + start.constants.length) x) ∧
      PieceFits [] (base + start.constants.length + constantCount test)
        (lowerIncrement enter leave (testSize test) increment) ∧
      PieceFits bodyLocals
        (base + start.constants.length + constantCount test + constantCount increment) code ∧
      roundSize test increment + code.size + 3 ≤ maxDistance ∧
      (test.isSome → 1 + ((lowerIncrement enter leave (testSize test) increment).size +
        code.size + 3) ≤ maxDistance) := by
  rw [PieceFits, scoped_append, dropLocals, Lowering.limits_append_instructions,
    Lowering.limits_append]
  constructor
  · rintro ⟨⟨hstartScoped, hbodyScoped⟩, hstart, hloop⟩
    obtain ⟨htest, hstep, hbody, hround, hexit⟩ := (limits_lowerLoop hstart.1).mp hloop
    exact ⟨⟨hstartScoped, hstart⟩, fun x hx => ⟨scoped_nil, htest x hx⟩, ⟨scoped_nil, hstep⟩,
      ⟨hbodyScoped, hbody⟩, hround, hexit⟩
  · rintro ⟨⟨hstartScoped, hstart⟩, htest, ⟨_, hstep⟩, ⟨hbodyScoped, hbody⟩, hround, hexit⟩
    exact ⟨⟨hstartScoped, hbodyScoped⟩, hstart, (limits_lowerLoop hstart.1).mpr
      ⟨fun x hx => (htest x hx).2, hstep, hbody, hround, hexit⟩⟩

/-- A loop in a block of its own, for the variable that the first clause may declare. -/
theorem stmtCompiles_forLoop {keyword : TokenOf .forKw} {c : ForClauses} {body : Stmt}
    (hc : c.Grouped) (hbody : StmtCompiles body) : StmtCompiles (.forLoop keyword c body) := by
  intro bound blocks rest s hreading hopen
  obtain ⟨bound, rfl⟩ := hreading.bound_eq_succ
  have hstatement : statement (bound + 1) s = inBlock (forStatement bound (statement bound))
      (s.past keyword.val (c.tokens ++ body.tokens ++ rest)) :=
    statement_of_keyword hreading (by rw [keyword.property]; rfl)
  have htail := hreading.tail
  have hinside : Reading bound (.ofBlocks ([] :: blocks)) (c.tokens ++ body.tokens) rest
      ((s.past keyword.val (c.tokens ++ body.tokens ++ rest)).within ([] :: blocks)) :=
    ⟨rfl, htail.bound, rfl, htail.room⟩
  have hinner : c.start.blocks ([] :: blocks) =
      innermost (c.start.blocks ([] :: blocks)) :: blocks := c.start.blocks_cons [] blocks
  have hfor := yields_forStatement hc hbody hinside hopen rfl hinner.symm rfl rfl rfl rfl
  have hyields := yields_inBlock htail.scope hfor
  rw [← hinner] at hyields
  rw [Stmt.last, Stmt.lower, Stmt.locals]
  exact Yields.of_eq (Yields.congr hyields pieceFits_forLoop.symm) hstatement rfl

theorem stmtCompiles_block {left : TokenOf .leftBrace} {body : Decls}
    {right : TokenOf .rightBrace} (h : DeclsCompiles body) :
    StmtCompiles (.block left body right) := by
  intro bound blocks rest s hreading _
  obtain ⟨bound, rfl⟩ := hreading.bound_eq_succ
  have hstatement : statement (bound + 1) s = inBlock (block bound (statement bound))
      (s.past left.val (body.tokens ++ [right.val] ++ rest)) :=
    statement_of_keyword hreading (by rw [left.property]; rfl)
  have htail := hreading.tail
  let opened := (s.past left.val (body.tokens ++ [right.val] ++ rest)).within ([] :: blocks)
  have hinside :
      Reading bound (.ofBlocks ([] :: blocks)) (body.tokens ++ [right.val]) rest opened :=
    ⟨rfl, htail.bound, rfl, htail.room⟩
  let stop : Kind → Bool := fun kind => kind = .rightBrace || kind = .eof
  have hends : ∀ kind, stop kind = true → kind = .rightBrace ∨ kind = .eof := by
    intro kind hkind
    simpa [stop] using hkind
  have hcount : body.tokens.length ≤ bound := by
    have hbound := htail.bound
    rw [List.length_append] at hbound
    omega
  have hstop : stop (nextKind ([right.val] ++ rest)) = true := by
    simp [stop, right.property]
  have hdecls := h hends hinside.left hcount hstop
  let code := body.lower ([] :: blocks) s.chunk.constants.size
  have hblock : Yields (block bound (statement bound)) opened ()
      (((opened.past right.val rest).append code).within
        (innermost (body.blocks ([] :: blocks)) :: blocks))
      (PieceFits (body.locals ([] :: blocks)) s.chunk.constants.size code) := by
    rw [← Decls.blocks_cons]
    exact hdecls.andThen (expect_cons rfl .rightBrace _ right.property) fun _ => respects_expect _ _
  -- dropping the locals takes neither constants nor jumps
  have hfits : PieceFits (body.locals ([] :: blocks)) s.chunk.constants.size code ↔
      PieceFits (body.locals ([] :: blocks)) s.chunk.constants.size
        (code ++ dropLocals (innermost (body.blocks ([] :: blocks))).length right.val.line) := by
    rw [PieceFits, PieceFits, dropLocals, Lowering.limits_append_instructions]
  rw [Stmt.last, Stmt.lower, Stmt.locals]
  exact ((yields_inBlock htail.scope hblock).congr hfits).of_eq hstatement rfl

/-! ## The induction

The three kinds of trees contain one another, so that the three theorems are proved together. -/

mutual

/-- Every grouped statement compiles to its code. -/
theorem stmtCompiles_of_grouped : ∀ t : Stmt, t.Grouped → StmtCompiles t
  | .print _ _ _, h => stmtCompiles_print h
  | .expression _ _, h => stmtCompiles_expression h
  | .conditional _ _ body otherwise, h =>
    stmtCompiles_conditional h.1 (stmtCompiles_of_grouped body h.2.1)
      (elseCompiles_of_grouped otherwise h.2.2) h.2.2
  | .whileLoop _ _ body, h => stmtCompiles_whileLoop h.1 (stmtCompiles_of_grouped body h.2)
  | .forLoop _ _ body, h => stmtCompiles_forLoop h.1 (stmtCompiles_of_grouped body h.2)
  | .block _ body _, h => stmtCompiles_block (declsCompiles_of_grouped body h)

theorem elseCompiles_of_grouped : ∀ (t : Else) {isOpen : Bool}, t.GroupedAfter isOpen →
    ElseCompiles t
  | .none, _, _ => elseCompiles_none
  | .branch _ body, _, h => elseCompiles_branch (stmtCompiles_of_grouped body h.2)

/-- Every grouped list of declarations compiles to its code. -/
theorem declsCompiles_of_grouped : ∀ ds : Decls, ds.Grouped → DeclsCompiles ds
  | .nil, _ => declsCompiles_nil
  | .declaration _ _ rest, h => declsCompiles_declaration h.1 (declsCompiles_of_grouped rest h.2)
  | .statement first rest, h =>
    declsCompiles_statement (stmtCompiles_of_grouped first h.1) (declsCompiles_of_grouped rest h.2)

end

/-! ## A whole script

A script starts from the empty state and ends with the instruction that stops the machine. -/

/-- The line of the return at the end of a script: that of the token after the last declaration, or
of the last token if there is none. -/
def endLine (script : Decls) (rest : List Token) : Nat :=
  (Cursor.mk (script.lastAfter (.eof 1)) rest).current.line

/-- A script can be compiled. -/
def ScriptFits (line : Nat) (script : Decls) : Prop :=
  PieceFits (script.locals []) 0 (script.program line)

/-- The declarations up to the end, and then the last instruction. -/
theorem yields_program {script : Decls} (h : script.Grouped) {rest : List Token}
    (hrest : nextKind rest = .eof) {s' : State}
    (hs' : s' = (((State.start (script.tokens ++ rest)).past
      (Cursor.mk (script.lastAfter (.eof 1)) rest).current rest.tail).append
        (script.program (endLine script rest)))) :
    Yields (program (script.tokens ++ rest).length) (.start (script.tokens ++ rest)) () s'
      (ScriptFits (endLine script rest) script) := by
  let start := State.start (script.tokens ++ rest)
  let stop : Kind → Bool := fun kind => kind = .eof
  -- outside all blocks only the end stops the loop, which is one of the two ways to end a list
  have hends : ∀ kind, stop kind = true → kind = .rightBrace ∨ kind = .eof := by
    intro kind hkind
    exact .inr (of_decide_eq_true hkind)
  have hreading : Reading (script.tokens ++ rest).length (.ofBlocks []) script.tokens rest start :=
    ⟨rfl, Nat.le_of_eq (List.length_append ..).symm, rfl, Nat.zero_le _⟩
  have hcount : script.tokens.length ≤ (script.tokens ++ rest).length := by
    rw [List.length_append]
    omega
  have hdecls := declsCompiles_of_grouped script h hends hreading hcount (decide_eq_true hrest)
  rw [Decls.blocks_nil] at hdecls
  have hfits : PieceFits (script.locals []) 0 (script.lower [] 0) ↔
      ScriptFits (endLine script rest) script := by
    rw [ScriptFits, Decls.program, PieceFits, PieceFits, Lowering.limits_append_instruction]
  refine Yields.congr
    (hdecls.andThen ?_ fun _ => respects_bind respects_advance fun _ => respects_emit _) hfits
  rw [bind_of_ok (advance_apply _), emit_apply, hs', Decls.program, ← State.append_append]
  rfl

/-- A recovering step never fails. -/
theorem recovering_ok (step : CompileM Unit) (s : State) : ∃ t, recovering step s = .ok () t := by
  cases hstep : step s with
  | ok _ t =>
    refine ⟨t, ?_⟩
    rw [recovering, bind_of_ok (attempt_of_ok hstep)]
    rfl
  | error e t =>
    rw [recovering, bind_of_ok (attempt_of_error hstep)]
    exact ⟨_, rfl⟩

/-- A loop of steps that never fail does not fail. -/
theorem repeatUntil_ok {step : CompileM Unit} (h : ∀ s, ∃ t, step s = .ok () t)
    (stop : Kind → Bool) (count : Nat) (s : State) :
    ∃ t, repeatUntil stop step count s = .ok () t := by
  induction count generalizing s with
  | zero => exact ⟨s, rfl⟩
  | succ count ih =>
    cases hstop : stop (nextKind s.cursor.ahead) with
    | true => exact ⟨s, repeatUntil_of_stop hstop _⟩
    | false =>
      obtain ⟨t, ht⟩ := h s
      obtain ⟨u, hu⟩ := ih t
      exact ⟨u, (repeatUntil_succ hstop count).trans ((bind_of_ok ht).trans hu)⟩

/-- Compiling always comes to an end of the script, with all errors recorded. -/
theorem program_ok (bound : Nat) (s : State) : ∃ t, program bound s = .ok () t := by
  obtain ⟨t, ht⟩ := repeatUntil_ok (recovering_ok _) (fun kind => kind = .eof) bound s
  refine ⟨_, (bind_of_ok ht).trans ((bind_of_ok (advance_apply t)).trans (emit_apply _ _))⟩

/-- Compiling a script is the same as running the compiler and looking at the last state. -/
theorem compile_eq_endState (tokens : List Token) :
    compile tokens = (endState (program tokens.length (.start tokens))).compilation := by
  unfold compile
  cases program tokens.length (.start tokens) <;> rfl

/-- The tokens of a script are compiled without errors exactly if the script fits, and then to its
code. -/
theorem result_compile_eq_ok_iff {script : Decls} (h : script.Grouped) {rest : List Token}
    (hrest : nextKind rest = .eof) {chunk : Chunk} :
    (compile (script.tokens ++ rest)).result = .ok chunk ↔
      ScriptFits (endLine script rest) script ∧
        chunk = Chunk.empty.extend (script.program (endLine script rest)) := by
  have hyields := yields_program h hrest rfl
  obtain ⟨t, ht⟩ := program_ok (script.tokens ++ rest).length (.start (script.tokens ++ rest))
  have hcompile : compile (script.tokens ++ rest) = t.compilation := by
    rw [compile, ht]
  rw [hcompile, Compilation.result]
  by_cases hfits : ScriptFits (endLine script rest) script
  · have hclean := hyields.clean hfits
    rw [ht] at hclean
    cases hclean
    constructor
    · intro hok
      cases hok
      exact ⟨hfits, rfl⟩
    · rintro ⟨_, rfl⟩
      rfl
  -- the compilation comes to its end all the same, but with an error in the record
  · have hmore : 0 < t.errors.size := (hyields.rejects hfits).size_lt ht
    have hsome : ¬ t.compilation.errors.isEmpty = true := by
      simp only [State.compilation, List.isEmpty_iff, Array.toList_eq_nil_iff]
      intro hnone
      rw [hnone] at hmore
      cases hmore
    rw [if_neg hsome]
    constructor
    · intro hok
      cases hok
    · rintro ⟨hyes, _⟩
      exact absurd hyes hfits

end Compile

end StackScript
