import StackScript.Proofs.Compile.Blocks
import StackScript.Proofs.Compile.Clean

/-!
# The code of expressions

Where the tokens ahead are those of a grouped expression, and what follows does not continue it,
compiling it appends the code of the expression. It is clean exactly if the expression does not use
a local that has no value yet and the code keeps the limits.

The tree of an expression leans to the left where operators group to the left, while the compiler
reads from the left and takes up one operator after the other. `lead` is the part of the compiler
that corresponds to a tree: the first operand and as many rounds of the loop as the tree has
operators on its left side. The proof is by induction on the tree; the operands on the right are
compiled by calls of `expressionAt`, and `Leads.compiles` leads from the parts back to such a call.
-/

namespace StackScript

open Lowering (instruction instructions pool jump)

namespace Tree.Expr

/-- The number of operators on the left side of the tree. -/
def spine : Expr → Nat
  | binary _ left _ _ | and left _ _ | or left _ _ => left.spine + 1
  | _ => 0

/-- An expression has a token for each operator on its left side, and one more. -/
theorem spine_lt_length_tokens (e : Expr) : e.spine < e.tokens.length := by
  induction e with
  | binary _ left _ right hleft _ | and left _ right hleft _ | or left _ right hleft _ =>
    simp only [spine, tokens, List.length_append, List.length_cons]
    omega
  | _ => simp [spine, tokens]

end Tree.Expr

open StackScript.Tree

namespace Compile

/-- The scope while an expression is compiled; a local may be waiting for its value. -/
def Scope.during (blocks : Blocks) : Option String → Scope
  | none => ofBlocks blocks
  | some name => (ofBlocks blocks).declare name

/-- The tokens after an expression do not continue it. -/
def Stops (precedence : Precedence) (e : Expr) (rest : List Token) : Prop :=
  (nextKind rest).precedence < e.rightLevel ∧
    (precedence ≤ .assignment → nextKind rest ≠ .equal)

/-- The local that is waiting for its value, if there is one, is not among the names. -/
def Unused (pending : Option String) (names : List String) : Prop :=
  ∀ name ∈ pending, name ∉ names

theorem unused_nil (pending : Option String) : Unused pending [] :=
  fun _ _ => List.not_mem_nil

/-- None of several names is used if the first and none of the others is. -/
theorem unused_cons {pending : Option String} {name : String} {names : List String} :
    Unused pending (name :: names) ↔ name ∉ pending ∧ Unused pending names := by
  simp only [Unused, List.mem_cons, not_or]
  constructor
  · intro h
    exact ⟨fun hname => (h name hname).1 rfl, fun n hn => (h n hn).2⟩
  · rintro ⟨hname, hnames⟩ n hn
    exact ⟨fun heq => hname (heq ▸ hn), hnames n hn⟩

theorem unused_append {pending : Option String} {a b : List String} :
    Unused pending (a ++ b) ↔ Unused pending a ∧ Unused pending b := by
  simp [Unused, forall_and]

/-- An expression can be compiled: it does not use the local that has no value yet, and its code
keeps the limits. -/
def Fits (blocks : Blocks) (pending : Option String) (base : Nat) (e : Expr) : Prop :=
  Unused pending e.names ∧ (e.lower blocks.flatten base).Limits base

section Fits

variable {blocks : Blocks} {pending : Option String} {base : Nat}

/-- A number needs room for one constant. -/
theorem fits_number {token : TokenOf .number} {value : Float}
    {reads : token.val.numberValue? = some value} :
    Fits blocks pending base (.number token value reads) ↔ base < Chunk.maxConstants := by
  rw [Fits, Expr.lower, Lowering.limits_append_instruction, Lowering.limits_pool_singleton]
  exact and_iff_right (unused_nil pending)

theorem fits_string {token : TokenOf .string} :
    Fits blocks pending base (.string token) ↔ base < Chunk.maxConstants := by
  rw [Fits, Expr.lower, Lowering.limits_append_instruction, Lowering.limits_pool_singleton]
  exact and_iff_right (unused_nil pending)

/-- A name must not be the one that waits for its value, and that of a global needs a constant. -/
theorem fits_name {token : TokenOf .identifier} :
    Fits blocks pending base (.name token) ↔
      token.val.lexeme ∉ pending ∧
        (pool (nameConstants blocks.flatten token.val.lexeme)).Limits base := by
  simp [Fits, Expr.names, Expr.lower, unused_cons, unused_nil]

/-- The target is looked up before the value is compiled. -/
theorem fits_assign {target : TokenOf .identifier} {equal : TokenOf .equal} {value : Expr} :
    Fits blocks pending base (.assign target equal value) ↔
      (target.val.lexeme ∉ pending ∧
        (pool (nameConstants blocks.flatten target.val.lexeme)).Limits base) ∧
      Fits blocks pending (base + (nameConstants blocks.flatten target.val.lexeme).length)
        value := by
  rw [Fits, Fits, Expr.names, Expr.lower, unused_cons, Lowering.limits_append_instruction,
    Lowering.limits_append]
  exact and_and_and_comm

/-- The operator itself always fits. -/
theorem fits_unary {operator : UnaryOperator} {token : TokenOf operator.kind} {operand : Expr} :
    Fits blocks pending base (.unary operator token operand) ↔
      Fits blocks pending base operand := by
  simp [Fits, Expr.names, Expr.lower]

variable {left right : Expr}

/-- Both operands have to fit, the right one after the constants of the left one. -/
theorem fits_binary {operator : BinaryOperator} {token : TokenOf operator.kind} :
    Fits blocks pending base (.binary operator left token right) ↔
      Fits blocks pending base left ∧
      Fits blocks pending (base + (left.lower blocks.flatten base).constants.length) right := by
  rw [Fits, Fits, Fits, Expr.names, Expr.lower, unused_append, Lowering.limits_append_instructions,
    Lowering.limits_append]
  exact and_and_and_comm

/-- The code that a short-circuit operator jumps over. -/
def secondOperand (blocks : Blocks) (base : Nat) (left : Expr) (token : Token) (right : Expr) :
    Lowering :=
  instruction .pop token.line ++
    right.lower blocks.flatten (base + (left.lower blocks.flatten base).constants.length)

/-- The jump over the second operand must not be too long. -/
theorem fits_and {token : TokenOf .andKw} :
    Fits blocks pending base (.and left token right) ↔
      Fits blocks pending base left ∧
      Fits blocks pending (base + (left.lower blocks.flatten base).constants.length) right ∧
      (secondOperand blocks base left token.val right).size ≤ maxDistance := by
  rw [Fits, Fits, Fits, Expr.names, Expr.lower, unused_append, Lowering.limits_append,
    Lowering.limits_append_jump, Lowering.limits_instruction_append, Lowering.constants_append,
    Lowering.constants_jump, List.append_nil]
  constructor
  · rintro ⟨⟨hleft, hright⟩, ⟨hfirst, hdistance⟩, hsecond⟩
    exact ⟨⟨hleft, hfirst⟩, ⟨hright, hsecond⟩, hdistance⟩
  · rintro ⟨⟨hleft, hfirst⟩, ⟨hright, hsecond⟩, hdistance⟩
    exact ⟨⟨hleft, hright⟩, ⟨hfirst, hdistance⟩, hsecond⟩

/-- The first jump of an `or` is always short enough. -/
theorem fits_or {token : TokenOf .orKw} :
    Fits blocks pending base (.or left token right) ↔
      Fits blocks pending base left ∧
      Fits blocks pending (base + (left.lower blocks.flatten base).constants.length) right ∧
      (secondOperand blocks base left token.val right).size ≤ maxDistance := by
  have hthree : 3 ≤ maxDistance := by decide
  rw [Fits, Fits, Fits, Expr.names, Expr.lower, unused_append, Lowering.limits_append,
    Lowering.limits_append_jump, Lowering.limits_append_jump, Lowering.limits_instruction_append,
    Lowering.constants_append, Lowering.constants_append, Lowering.constants_jump,
    Lowering.constants_jump, List.append_nil, List.append_nil]
  constructor
  · rintro ⟨⟨hleft, hright⟩, ⟨⟨hfirst, _⟩, hdistance⟩, hsecond⟩
    exact ⟨⟨hleft, hfirst⟩, ⟨hright, hsecond⟩, hdistance⟩
  · rintro ⟨⟨hleft, hfirst⟩, ⟨hright, hsecond⟩, hdistance⟩
    exact ⟨⟨hleft, hright⟩, ⟨⟨hfirst, hthree⟩, hdistance⟩, hsecond⟩

end Fits

/-! ## Parts of the compiler of expressions

An expression is compiled in three parts: its first operand, the operators that follow, and a check
that no assignment is left. -/

/-- The first operand. -/
def first (operand : Precedence → CompileM Unit) (precedence : Precedence) : CompileM Unit := do
  advance
  match (← previous).kind.prefixForm? with
  | none => failAtPrevious (.expected .expression)
  | some form => prefixForm operand (precedence ≤ .assignment) form

/-- The first operand and a number of operators after it. -/
def lead (operand : Precedence → CompileM Unit) (precedence : Precedence) (count : Nat) :
    CompileM Unit := do
  first operand precedence
  infixForms operand precedence count

/-- After an expression no `=` may stand where an assignment is possible. -/
def noAssignment (precedence : Precedence) : CompileM Unit := do
  if precedence ≤ .assignment then
    if ← accept .equal then
      failAtPrevious .invalidAssignmentTarget

/-- An expression is its first operand, its operators, and no assignment after them. -/
theorem expressionAt_succ (bound : Nat) (precedence : Precedence) :
    expressionAt (bound + 1) precedence =
      (lead (expressionAt bound) precedence bound >>= fun _ => noAssignment precedence) := by
  rw [expressionAt]
  simp only [lead, first, bind_assoc]
  congr 1
  funext _
  congr 1
  funext token
  cases token.kind.prefixForm? with
  | none => rfl
  | some form =>
    simp only [noAssignment]
    congr 1
    funext _
    congr 1
    funext _
    by_cases h : precedence ≤ .assignment
    · simp [h]
    · simp [h]

section Parts

variable {operand : Precedence → CompileM Unit} {precedence : Precedence} {s : State}
  {token : Token} {rest : List Token}

/-- Without operators only the first operand is compiled. -/
theorem lead_zero : lead operand precedence 0 = first operand precedence := by
  simp [lead, infixForms]

/-- The first token tells the form. -/
theorem first_apply {form : PrefixForm} (hahead : s.cursor.ahead = token :: rest)
    (hform : token.kind.prefixForm? = some form) :
    first operand precedence s =
      prefixForm operand (precedence ≤ .assignment) form (s.past token rest) := by
  rw [first, bind_of_ok (advance_cons hahead), bind_of_ok (previous_apply _)]
  simp only [State.cursor_past, hform]

/-- A token that does not bind tightly enough ends the loop. -/
theorem infixForms_of_stop (operand : Precedence → CompileM Unit)
    (h : (nextKind s.cursor.ahead).precedence < precedence) (count : Nat) :
    infixForms operand precedence count s = .ok () s := by
  cases count with
  | zero => rfl
  | succ count =>
    rw [infixForms, bind_of_ok (current_apply s), current_kind,
      if_neg (not_le.mpr h)]
    rfl

/-- The loop over `n + k` operators goes over `n` of them and then over `k`. If it ends early the
rest of it does nothing, because the same token ends it again. -/
theorem infixForms_add (operand : Precedence → CompileM Unit) (precedence : Precedence)
    (n k : Nat) :
    infixForms operand precedence (n + k) =
      (infixForms operand precedence n >>= fun _ => infixForms operand precedence k) := by
  induction n with
  | zero =>
    rw [Nat.zero_add]
    rfl
  | succ n ih =>
    funext s
    rw [Nat.succ_add, infixForms, infixForms, bind_assoc, bind_of_ok (current_apply s),
      bind_of_ok (current_apply s), ih]
    by_cases h : precedence ≤ s.cursor.current.kind.precedence
    · rw [if_pos h, if_pos h]
      cases s.cursor.current.kind.infixForm? with
      | none => simp
      | some form => simp
    · rw [if_neg h, if_neg h, pure_bind]
      rw [current_kind] at h
      exact (infixForms_of_stop operand (not_le.mp h) k).symm

/-- One round of the loop. -/
theorem infixForms_one {form : InfixForm} (operand : Precedence → CompileM Unit)
    (hahead : s.cursor.ahead = token :: rest) (hform : token.kind.infixForm? = some form)
    (hle : precedence ≤ token.kind.precedence) :
    infixForms operand precedence 1 s = infixForm operand form (s.past token rest) := by
  have hkind : s.cursor.current.kind = token.kind := by
    rw [current_kind, hahead, nextKind_cons]
  rw [infixForms, bind_of_ok (current_apply s), hkind, if_pos hle, bind_of_ok (advance_cons hahead)]
  simp only [hform]
  simp [infixForms]

/-- The operators are compiled in portions. -/
theorem lead_add (operand : Precedence → CompileM Unit) (precedence : Precedence) (n k : Nat) :
    lead operand precedence (n + k) =
      (lead operand precedence n >>= fun _ => infixForms operand precedence k) := by
  simp [lead, infixForms_add]

end Parts

/-! ## Literals and names

What is compiled for an operand that is one token. -/

/-- A number becomes a constant. -/
theorem number_apply {s : State} {value : Float}
    (h : s.cursor.previous.numberValue? = some value) :
    number s = emitConstant (.number value) s := by
  rw [Token.numberValue?] at h
  rw [number, bind_of_ok (previous_apply s)]
  cases hliteral : s.cursor.previous.literal with
  | none => simp_all
  | some literal => cases literal <;> simp_all

/-- A string becomes a constant without its quotes. -/
theorem string_apply (s : State) :
    string s = emitConstant (.string s.cursor.previous.stringValue) s := by
  rw [string, bind_of_ok (previous_apply s), Token.stringValue]
  cases hliteral : s.cursor.previous.literal with
  | none => rfl
  | some literal => cases literal <;> rfl

/-- A constant is emitted exactly if the pool has room for it. -/
theorem yields_emitConstant (value : Value) (s : State) :
    Yields (emitConstant value) s ()
      (s.append (pool [value] ++
        instruction (.constant s.chunk.constants.size.toUInt8) s.cursor.previous.line))
      (s.chunk.constants.size < Chunk.maxConstants) :=
  yields_of_ite (emitConstant_apply value s) rfl rfl

/-- A local that has its value. -/
theorem access_of_local {s : State} {name : String} {slot : UInt8} {l : Local}
    (h : s.scope.resolve name = some (slot, l)) (hdepth : l.depth.isSome) :
    access name s = .ok ⟨.getLocal slot, .setLocal slot⟩ s := by
  have hget : (get : CompileM State) s = .ok s s := rfl
  have hnone : ¬ l.depth.isNone = true := by simpa [Option.isSome_iff_ne_none] using hdepth
  rw [access, bind_of_ok hget, h]
  simp only [hnone]
  rfl

/-- A local whose initializer is being compiled cannot be used. -/
theorem access_of_waiting {s : State} {name : String} {slot : UInt8} {l : Local}
    (h : s.scope.resolve name = some (slot, l)) (hdepth : l.depth = none) :
    access name s = .error (.atToken s.cursor.previous .selfReference) s := by
  have hget : (get : CompileM State) s = .ok s s := rfl
  rw [access, bind_of_ok hget, h]
  simp only [hdepth]
  rfl

/-- A name that no local has is that of a global. -/
theorem access_of_global {s : State} {name : String} (h : s.scope.resolve name = none) :
    access name s =
      (addConstant (.string name) >>= fun index =>
        pure (⟨.getGlobal index, .setGlobal index⟩ : Access)) s := by
  have hget : (get : CompileM State) s = .ok s s := rfl
  rw [access, bind_of_ok hget, h]
  rfl

/-- A variable is reached exactly if it is not the local that waits for its value and the pool has
room for its name, should it be global. -/
theorem yields_access {s : State} {blocks : Blocks} {pending : Option String}
    (hscope : s.scope = .during blocks pending)
    (hroom : s.chunk.constants.size ≤ Chunk.maxConstants)
    (name : String) :
    Yields (access name) s (reach blocks.flatten s.chunk.constants.size name)
      (s.append (pool (nameConstants blocks.flatten name)))
      (name ∉ pending ∧
        (pool (nameConstants blocks.flatten name)).Limits s.chunk.constants.size) := by
  by_cases hpending : name ∈ pending
  · refine ⟨fun h => absurd hpending h.1, fun _ => ?_⟩
    rw [Option.mem_def] at hpending
    rw [hpending] at hscope
    -- the latest local of that name is the one without a value
    have hself := Scope.resolve_declare_self (Scope.ofBlocks blocks) name
    exact rejects_of_error (access_of_waiting (by rw [hscope]; exact hself) rfl) rfl rfl
  -- any other name is found as if that local were not there
  · have hresolve : s.scope.resolve name = (Scope.ofBlocks blocks).resolve name := by
      rw [hscope]
      cases pending with
      | none => rfl
      | some other => exact Scope.resolve_declare_of_ne _ fun h => hpending (by rw [h]; rfl)
    have hfound := Scope.resolve_ofBlocks blocks name
    rw [← hresolve] at hfound
    unfold reach nameConstants
    cases hslot : slot? name blocks.flatten with
    | some slot =>
      rw [hslot] at hfound
      obtain ⟨l, hl, hdepth⟩ := hfound
      have hpool : pool [] = .empty := rfl
      refine (yields_of_ok ?_).congr ⟨fun _ => ⟨hpending, hroom, by simp [pool]⟩, fun _ => trivial⟩
      simp only [hpool, State.append_empty]
      exact access_of_local hl hdepth
    | none =>
      rw [hslot] at hfound
      have hadd := yields_of_ite (addConstant_apply (.string name) s) rfl rfl
      have hpure := hadd.andThen (f := fun index =>
        pure (⟨.getGlobal index, .setGlobal index⟩ : Access)) rfl fun _ => respects_pure _
      refine (hpure.of_eq (access_of_global hfound) rfl).congr ?_
      rw [Lowering.limits_pool_singleton]
      exact (and_iff_right hpending).symm

/-! ## Expressions of every form

By induction on the tree. The left operand of an operator has been compiled when the operator is
met, so a tree is followed along its left side. -/

/-- The compiler is about to read the given tokens, with enough of its bound left. -/
structure Reading (bound : Nat) (scope : Scope) (tokens rest : List Token) (s : State) : Prop where
  ahead : s.cursor.ahead = tokens ++ rest
  bound : tokens.length + rest.length ≤ bound
  scope : s.scope = scope
  room : s.chunk.constants.size ≤ Chunk.maxConstants

/-- The state after an expression. -/
def State.through (s : State) (blocks : Blocks) (e : Expr) (rest : List Token) : State :=
  (s.past e.last rest).append (e.lower blocks.flatten s.chunk.constants.size)

/-- The first operand of an expression and the operators of its left side compile to its code. -/
def Leads (e : Expr) : Prop :=
  ∀ ⦃bound precedence blocks pending rest s⦄,
    Reading (bound + 1) (.during blocks pending) e.tokens rest s →
    precedence ≤ e.level → Stops precedence e rest →
    Yields (lead (expressionAt bound) precedence e.spine) s () (s.through blocks e rest)
      (Fits blocks pending s.chunk.constants.size e)

/-- An expression compiles to its code. -/
def Compiles (e : Expr) : Prop :=
  ∀ ⦃bound precedence blocks pending rest s⦄,
    Reading bound (.during blocks pending) e.tokens rest s →
    precedence ≤ e.level → (nextKind rest).precedence < precedence →
    (precedence ≤ .assignment → nextKind rest ≠ .equal) →
    Yields (expressionAt bound precedence) s () (s.through blocks e rest)
      (Fits blocks pending s.chunk.constants.size e)

/-- After an expression that nothing continues the loop over operators ends, and no `=` stands
there. -/
theorem Leads.compiles {e : Expr} (h : Leads e) : Compiles e := by
  intro bound precedence blocks pending rest s hreading hlevel hstop hequal
  have hlength := e.spine_lt_length_tokens
  have hbound := hreading.bound
  obtain ⟨bound, rfl⟩ : ∃ b, bound = b + 1 := ⟨bound - 1, by omega⟩
  have hright := lt_of_lt_of_le hstop
    (le_trans hlevel e.level_le_rightLevel)
  have hlead := h hreading hlevel ⟨hright, hequal⟩
  -- the loop has rounds to spare and uses none of them
  have hrounds : infixForms (expressionAt bound) precedence (bound - e.spine)
      (s.through blocks e rest) = .ok () (s.through blocks e rest) :=
    infixForms_of_stop _ hstop _
  have hend : noAssignment precedence (s.through blocks e rest) =
      .ok () (s.through blocks e rest) := by
    unfold noAssignment
    split
    · rename_i hassign
      rw [bind_of_ok (accept_of_ne .equal (hequal hassign))]
      rfl
    · rfl
  have hcount : e.spine + (bound - e.spine) = bound := by omega
  have hsplit := lead_add (expressionAt bound) precedence e.spine (bound - e.spine)
  rw [hcount] at hsplit
  rw [expressionAt_succ, hsplit]
  refine (hlead.andThen hrounds fun _ => ?_).andThen hend fun _ => ?_
  · exact respects_infixForms (respects_expressionAt bound) _ _
  · exact respects_ite (respects_bind (respects_accept _) fun _ =>
      respects_ite (respects_failAtPrevious _) (respects_pure _)) (respects_pure _)

/-- An expression after other code, which `s` does not have yet. -/
theorem Compiles.after {e : Expr} (h : Compiles e) {bound : Nat} {precedence : Precedence}
    {blocks : Blocks} {pending : Option String} {token : Token} {rest : List Token} {s : State}
    {code : Lowering} (hscope : s.scope = .during blocks pending)
    (hroom : s.chunk.constants.size + code.constants.length ≤ Chunk.maxConstants)
    (hbound : e.tokens.length + rest.length ≤ bound) (hlevel : precedence ≤ e.level)
    (hstop : (nextKind rest).precedence < precedence)
    (hequal : precedence ≤ .assignment → nextKind rest ≠ .equal) :
    Yields (expressionAt bound precedence) ((s.past token (e.tokens ++ rest)).append code) ()
      ((s.past e.last rest).append
        (code ++ e.lower blocks.flatten (s.chunk.constants.size + code.constants.length)))
      (Fits blocks pending (s.chunk.constants.size + code.constants.length) e) := by
  have hsize : (s.chunk.extend code).constants.size =
      s.chunk.constants.size + code.constants.length := Chunk.size_constants_extend ..
  have hreading : Reading bound (.during blocks pending) e.tokens rest
      ((s.past token (e.tokens ++ rest)).append code) :=
    ⟨rfl, hbound, hscope, Nat.le_trans (Nat.le_of_eq hsize) hroom⟩
  have hyields := h hreading hlevel hstop hequal
  rw [State.through, State.past_append_past, State.append_append] at hyields
  simpa only [State.chunk_append, State.chunk_past, hsize] using hyields

/-! ### Expressions that are one operand

Their form is told by the first token. -/

/-- An expression without operators on its left side is compiled by what its first token stands
for. -/
theorem leads_of_prefixForm {e : Expr} {token : Token} {more : List Token} {form : PrefixForm}
    (hspine : e.spine = 0) (htokens : e.tokens = token :: more)
    (hform : token.kind.prefixForm? = some form)
    (h : ∀ ⦃bound precedence blocks pending rest s⦄,
      Reading (bound + 1) (.during blocks pending) e.tokens rest s →
      precedence ≤ e.level → Stops precedence e rest →
      Yields (prefixForm (expressionAt bound) (precedence ≤ .assignment) form)
        (s.past token (more ++ rest)) () (s.through blocks e rest)
        (Fits blocks pending s.chunk.constants.size e)) : Leads e := by
  intro bound precedence blocks pending rest s hreading hlevel hstop
  have hahead : s.cursor.ahead = token :: (more ++ rest) := by
    rw [hreading.ahead, htokens, List.cons_append]
  rw [hspine, lead_zero]
  exact (h hreading hlevel hstop).of_eq (first_apply hahead hform) rfl

theorem leads_constant (value : Constant) (word : TokenOf value.kind) :
    Leads (.constant value word) := by
  have hform : word.val.kind.prefixForm? = some (.constant value) := by
    rw [word.property]
    simp
  refine leads_of_prefixForm (e := .constant value word) rfl rfl hform
    fun _ _ _ pending _ _ hreading _ _ => ?_
  refine (yields_of_ok (emit_apply _ _)).congr
    ⟨fun _ => ⟨unused_nil pending, Lowering.limits_instruction hreading.room _ _⟩, fun _ => trivial⟩

/-- A number whose text can be read. -/
theorem leads_number (token : TokenOf .number) (value : Float)
    (reads : token.val.numberValue? = some value) : Leads (.number token value reads) := by
  have hform : token.val.kind.prefixForm? = some .number := by
    rw [token.property]
    rfl
  refine leads_of_prefixForm (e := .number token value reads) rfl rfl hform
    fun bound precedence blocks pending rest s _ _ _ => ?_
  have hnumber : number (s.past token.val ([] ++ rest)) = _ := number_apply reads
  exact ((yields_emitConstant _ _).of_eq hnumber rfl).congr fits_number.symm

theorem leads_string (token : TokenOf .string) : Leads (.string token) := by
  have hform : token.val.kind.prefixForm? = some .string := by
    rw [token.property]
    rfl
  refine leads_of_prefixForm (e := .string token) rfl rfl hform fun _ _ _ _ _ _ _ _ _ => ?_
  exact ((yields_emitConstant _ _).of_eq (string_apply _) rfl).congr fits_string.symm

/-- Passes an `=` where an assignment is possible, and tells whether there was one. -/
def acceptAssignment (canAssign : Bool) : CompileM Bool :=
  if canAssign then accept .equal else pure false

/-- What follows a name is looked at only where an assignment is allowed. -/
theorem variableUse_eq (operand : Precedence → CompileM Unit) (canAssign : Bool) :
    variableUse operand canAssign = (do
      let token ← previous
      let place ← access token.lexeme
      let assigns ← acceptAssignment canAssign
      if assigns then (do operand .assignment; emit place.set) else emit place.get) := by
  unfold variableUse acceptAssignment
  cases canAssign <;> simp

/-- No `=` follows, or an assignment is not allowed. -/
theorem acceptAssignment_of_ne {canAssign : Bool} {s : State}
    (h : canAssign = true → nextKind s.cursor.ahead ≠ .equal) :
    acceptAssignment canAssign s = .ok false s := by
  cases canAssign with
  | false => rfl
  | true => exact accept_of_ne .equal (h rfl)

theorem grows_acceptAssignment (canAssign : Bool) : Grows (acceptAssignment canAssign) :=
  respects_ite (respects_accept _) (respects_pure _)

/-- What is compiled of a name after it has been looked up. -/
theorem grows_afterAccess (bound : Nat) (canAssign : Bool) (place : Access) :
    Grows (do
      if ← acceptAssignment canAssign then
        expressionAt bound .assignment
        emit place.set
      else
        emit place.get) := by
  refine respects_bind (grows_acceptAssignment canAssign) fun assigns => ?_
  refine respects_ite ?_ (respects_emit _)
  exact respects_bind (respects_expressionAt bound _) fun _ => respects_emit _

/-- A name that is read. -/
theorem leads_name (token : TokenOf .identifier) : Leads (.name token) := by
  have hform : token.val.kind.prefixForm? = some .name := by
    rw [token.property]
    rfl
  refine leads_of_prefixForm (e := .name token) rfl rfl hform
    fun bound precedence blocks pending rest s hreading _ hstop => ?_
  have haccess := yields_access (s := s.past token.val ([] ++ rest)) hreading.scope hreading.room
    token.val.lexeme
  have hequal : acceptAssignment (precedence ≤ .assignment)
      ((s.past token.val ([] ++ rest)).append
        (pool (nameConstants blocks.flatten token.val.lexeme))) = .ok false _ :=
    acceptAssignment_of_ne fun h => hstop.2 (of_decide_eq_true h)
  rw [prefixForm, variableUse_eq]
  refine (Yields.after (previous_apply _) (haccess.andThen ?_ fun place => ?_) rfl).congr ?_
  · rw [bind_of_ok hequal]
    exact (emit_apply _ _).trans (by rw [State.append_append]; rfl)
  · exact grows_afterAccess bound _ place
  · exact fits_name.symm

/-- A name that is assigned to: its value is compiled as a new expression. -/
theorem leads_assign {target : TokenOf .identifier} {equal : TokenOf .equal} {value : Expr}
    (h : Compiles value) : Leads (.assign target equal value) := by
  have hform : target.val.kind.prefixForm? = some .name := by
    rw [target.property]
    rfl
  refine leads_of_prefixForm (e := .assign target equal value) rfl rfl hform
    fun bound precedence blocks pending rest s hreading hlevel hstop => ?_
  have hbound : value.tokens.length + rest.length ≤ bound := by
    have hbound := hreading.bound
    simp only [Expr.tokens, List.length_cons] at hbound
    omega
  have haccess := yields_access (s := s.past target.val (equal.val :: value.tokens ++ rest))
    hreading.scope hreading.room target.val.lexeme
  -- the target has been resolved, and what follows is taken as an assignment in a loose context
  have hassigns : ∀ code : Lowering, acceptAssignment (precedence ≤ .assignment)
      ((s.past target.val (equal.val :: value.tokens ++ rest)).append code) =
        .ok true ((s.past equal.val (value.tokens ++ rest)).append code) := by
    intro code
    have hassign : decide (precedence ≤ .assignment) = true := decide_eq_true hlevel
    rw [hassign]
    exact accept_cons rfl .equal equal.property
  rw [prefixForm, variableUse_eq]
  refine (Yields.after (previous_apply _) (haccess.bind (fun hfits => ?_) (fun place => ?_) rfl)
    rfl).congr fits_assign.symm
  · refine Yields.after (hassigns _) ?_ rfl
    refine (h.after hreading.scope hfits.2.1 hbound value.assignment_le_level hstop.1
      fun _ => hstop.2 hlevel).andThen ?_ fun _ => respects_emit _
    rw [emit_apply, State.append_append]
    rfl
  · exact grows_afterAccess bound _ place

/-- Inside parentheses any expression can stand. -/
theorem leads_grouping {left : TokenOf .leftParen} {inner : Expr} {right : TokenOf .rightParen}
    (h : Compiles inner) : Leads (.grouping left inner right) := by
  have hform : left.val.kind.prefixForm? = some .grouping := by
    rw [left.property]
    rfl
  refine leads_of_prefixForm (e := .grouping left inner right) rfl rfl hform
    fun bound precedence blocks pending rest s hreading _ _ => ?_
  have hclose : nextKind (right.val :: rest) = .rightParen := right.property
  have hinner : Reading bound (.during blocks pending) inner.tokens (right.val :: rest)
      (s.past left.val (inner.tokens ++ [right.val] ++ rest)) := by
    have hbound := hreading.bound
    refine ⟨by simp, ?_, hreading.scope, hreading.room⟩
    simp only [Expr.tokens, List.length_cons, List.length_append, List.length_nil] at hbound ⊢
    omega
  refine (h hinner inner.assignment_le_level ?_ ?_).andThen
    (expect_cons rfl .rightParen _ right.property) fun _ => respects_expect _ _
  · rw [hclose]
    decide
  · rw [hclose]
    decide

/-- The operand of a unary operator holds together at least as tightly. -/
theorem leads_unary {operator : UnaryOperator} {token : TokenOf operator.kind} {operand : Expr}
    (h : Compiles operand) (hlevel : .unary ≤ operand.level) :
    Leads (.unary operator token operand) := by
  have hform : token.val.kind.prefixForm? = some (.unary operator) := by
    rw [token.property]
    simp
  refine leads_of_prefixForm (e := .unary operator token operand) rfl rfl hform
    fun bound precedence blocks pending rest s hreading _ _ => ?_
  have hoperand : Reading bound (.during blocks pending) operand.tokens rest
      (s.past token.val (operand.tokens ++ rest)) := by
    have hbound := hreading.bound
    refine ⟨rfl, ?_, hreading.scope, hreading.room⟩
    simp only [Expr.tokens, List.length_cons] at hbound
    omega
  refine ((h hoperand hlevel (Kind.precedence_lt_unary _) fun hle => ?_).andThen ?_
    fun _ => respects_emit _).congr fits_unary.symm
  · exact absurd hle (by decide)
  · rw [emit_apply, State.through, State.append_append]
    rfl

/-! ### Operators between operands

The operator that is met last in the loop is the one at the root of the tree. -/

section Operands

variable {bound : Nat} {scope : Scope} {tokens left right rest : List Token} {token : Token}
  {s : State}

/-- The left operand of an operator is followed by the operator and its right operand. -/
theorem Reading.leftOperand (h : Reading bound scope tokens rest s)
    (htokens : tokens = left ++ token :: right) :
    Reading bound scope left (token :: (right ++ rest)) s := by
  have hbound := h.bound
  refine ⟨by simp [h.ahead, htokens], ?_, h.scope, h.room⟩
  simp only [htokens, List.length_append, List.length_cons] at hbound ⊢
  omega

/-- The right operand leaves some of the bound. -/
theorem Reading.right_bound (h : Reading (bound + 1) scope tokens rest s)
    (htokens : tokens = left ++ token :: right) : right.length + rest.length ≤ bound := by
  have hbound := h.bound
  simp only [htokens, List.length_append, List.length_cons] at hbound
  omega

end Operands

/-- An operation is compiled by its left operand, and then by what its operator stands for. -/
theorem leads_of_infixForm {e left right : Expr} {token : Token} {form : InfixForm}
    (hspine : e.spine = left.spine + 1)
    (htokens : e.tokens = left.tokens ++ token :: right.tokens)
    (hform : token.kind.infixForm? = some form) (hle : e.level ≤ left.level)
    (hprecedence : token.kind.precedence = e.level) (hlt : e.level < left.rightLevel)
    (hleft : Leads left)
    {fits : Blocks → Option String → Nat → Prop}
    (hfits : ∀ {blocks pending base}, Fits blocks pending base e ↔
      Fits blocks pending base left ∧ fits blocks pending base)
    (h : ∀ ⦃bound precedence blocks pending rest s⦄,
      Reading (bound + 1) (.during blocks pending) e.tokens rest s →
      precedence ≤ e.level → Stops precedence e rest →
      Fits blocks pending s.chunk.constants.size left →
      Yields (infixForm (expressionAt bound) form)
        ((s.past token (right.tokens ++ rest)).append
          (left.lower blocks.flatten s.chunk.constants.size))
        () (s.through blocks e rest) (fits blocks pending s.chunk.constants.size)) : Leads e := by
  intro bound precedence blocks pending rest s hreading hlevel hstop
  -- the left operand ends before the operator, since that binds more loosely than what it ends with
  have hstopLeft : Stops precedence left (token :: (right.tokens ++ rest)) := by
    refine ⟨?_, fun _ hequal => ?_⟩
    · rw [nextKind_cons, hprecedence]
      exact hlt
    · rw [nextKind_cons] at hequal
      rw [hequal] at hform
      cases hform
  have hlead := hleft (hreading.leftOperand htokens) (le_trans hlevel hle) hstopLeft
  rw [hspine, lead_add]
  refine (hlead.bind (fun hfirst => ?_) (fun _ => ?_) rfl).congr hfits.symm
  -- then the operator takes one round of the loop
  · have hround := infixForms_one (s := s.through blocks left (token :: (right.tokens ++ rest)))
      (expressionAt bound) rfl hform (hprecedence ▸ hlevel)
    exact (h hreading hlevel hstop hfirst).of_eq hround rfl
  · exact respects_infixForms (respects_expressionAt bound) _ _

/-- The left operand has the level of the operator or a tighter one, and the right one a tighter
one. -/
theorem leads_binary {operator : BinaryOperator} {left right : Expr} {token : TokenOf operator.kind}
    (hleft : Leads left) (hright : Compiles right) (hle : operator.precedence ≤ left.level)
    (hlt : operator.precedence.next ≤ right.level) : Leads (.binary operator left token right) := by
  have hform : token.val.kind.infixForm? = some (.binary operator) := by
    rw [token.property]
    simp
  have hprecedence : token.val.kind.precedence = operator.precedence := by
    rw [token.property]
    simp
  refine leads_of_infixForm (e := .binary operator left token right) rfl rfl hform hle hprecedence
    (Expr.precedence_lt_rightLevel hle) hleft fits_binary
    fun bound precedence blocks pending rest s hreading _ hstop hfirst => ?_
  have htight : operator.precedence.next ≤ .assignment → nextKind rest ≠ .equal := by
    intro hloose
    have hnext := Precedence.rank_next_precedence operator
    have hrank := Precedence.rank_precedence operator
    rw [← Precedence.rank_strictMono.le_iff_le] at hloose
    simp only [Precedence.rank] at hloose hnext hrank
    omega
  refine (hright.after hreading.scope hfirst.2.1 (hreading.right_bound rfl) hlt hstop.1
    htight).andThen ?_ fun _ => respects_forM_emit _
  rw [forM_emit_apply, State.append_append]
  rfl

/-- The right operand of a short-circuit operator, which starts by dropping the value of the left
one. -/
theorem yields_secondOperand {bound : Nat} {precedence : Precedence} {blocks : Blocks}
    {pending : Option String} {right : Expr} {token : Token} {rest : List Token} {s : State}
    (hright : Compiles right) (hcursor : s.cursor = ⟨token, right.tokens ++ rest⟩)
    (hscope : s.scope = .during blocks pending)
    (hroom : s.chunk.constants.size ≤ Chunk.maxConstants)
    (hbound : right.tokens.length + rest.length ≤ bound) (hlevel : precedence ≤ right.level)
    (hstop : (nextKind rest).precedence < precedence) (htight : .assignment < precedence) :
    Yields (emit .pop >>= fun _ => expressionAt bound precedence) s ()
      ((s.past right.last rest).append (instruction .pop token.line ++
        right.lower blocks.flatten s.chunk.constants.size))
      (Fits blocks pending s.chunk.constants.size right) := by
  have hemit : emit .pop s =
      .ok () ((s.past token (right.tokens ++ rest)).append (instruction .pop token.line)) := by
    rw [emit_apply, State.past_of_cursor hcursor, hcursor]
  refine Yields.after hemit ?_ rfl
  exact hright.after hscope hroom hbound hlevel hstop
    fun hle => absurd hle (not_le.mpr htight)

/-- The second operand is jumped over if the first is false. -/
theorem leads_and {left right : Expr} {token : TokenOf .andKw} (hleft : Leads left)
    (hright : Compiles right) (hlt : Precedence.and < left.level) (hle : .and ≤ right.level) :
    Leads (.and left token right) := by
  have hform : token.val.kind.infixForm? = some .and := by
    rw [token.property]
    rfl
  have hprecedence : token.val.kind.precedence = .and := by
    rw [token.property]
    rfl
  refine leads_of_infixForm (e := .and left token right) rfl rfl hform (Nat.le_of_lt hlt)
    hprecedence (lt_of_lt_of_le hlt left.level_le_rightLevel) hleft fits_and
    fun bound precedence blocks pending rest s hreading _ hstop hfirst => ?_
  let first := left.lower blocks.flatten s.chunk.constants.size
  let t := (s.past token.val (right.tokens ++ rest)).append first
  have hsize : (t.awaiting .jumpIfFalse).chunk.constants.size =
      s.chunk.constants.size + first.constants.length := by
    simp [t]
  have hsecond := yields_secondOperand (s := t.awaiting .jumpIfFalse) hright rfl hreading.scope
    (hsize ▸ hfirst.2.1) (hreading.right_bound rfl) hle hstop.1 (by decide)
  rw [hsize] at hsecond
  -- the jump that was emitted before the right operand is completed behind it
  have hpatch := hsecond.bind (fun _ => yields_patchJump Chunk.isForward_jumpIfFalse ..)
    (fun _ => respects_patchJump _) rfl
  have hend : s.through blocks (.and left token right) rest =
      (t.past right.last rest).append
        (jump .jumpIfFalse (secondOperand blocks s.chunk.constants.size left token.val right).size
          token.val.line ++ secondOperand blocks s.chunk.constants.size left token.val right) := by
    simp only [t, State.through, State.past_append_past, State.append_append, Expr.lower,
      Lowering.append_assoc]
    rfl
  rw [infixForm, hend]
  rw [bind_assoc] at hpatch
  exact Yields.after (emitJump_apply .jumpIfFalse t) hpatch rfl

/-- The second operand is jumped over if the first is true. -/
theorem leads_or {left right : Expr} {token : TokenOf .orKw} (hleft : Leads left)
    (hright : Compiles right) (hlt : Precedence.or < left.level) (hle : .or ≤ right.level) :
    Leads (.or left token right) := by
  have hform : token.val.kind.infixForm? = some .or := by
    rw [token.property]
    rfl
  have hprecedence : token.val.kind.precedence = .or := by
    rw [token.property]
    rfl
  refine leads_of_infixForm (e := .or left token right) rfl rfl hform (Nat.le_of_lt hlt)
    hprecedence (lt_of_lt_of_le hlt left.level_le_rightLevel) hleft fits_or
    fun bound precedence blocks pending rest s hreading _ hstop hfirst => ?_
  let first := left.lower blocks.flatten s.chunk.constants.size
  let t := (s.past token.val (right.tokens ++ rest)).append first
  -- the first jump leads over the second, which leads over the right operand
  let u := t.append (jump .jumpIfFalse 3 token.val.line)
  have hopened : emitJump .jump (t.awaiting .jumpIfFalse) =
      .ok (u.chunk.size + 1) ((t.awaiting .jumpIfFalse).awaiting .jump) := by
    rw [emitJump_apply]
    simp [u, Chunk.isForward_jumpIfFalse.size_jump]
  have hclosed : patchJump (t.chunk.size + 1) ((t.awaiting .jumpIfFalse).awaiting .jump) =
      .ok () (u.awaiting .jump) := by
    have hyields := yields_patchJump_awaiting Chunk.isForward_jumpIfFalse Chunk.isForward_jump t
      token.val (right.tokens ++ rest) .empty
    rw [State.append_empty, Lowering.append_empty] at hyields
    exact hyields.clean (by decide)
  have hsize : (u.awaiting .jump).chunk.constants.size =
      s.chunk.constants.size + first.constants.length := by
    simp [u, t]
  have hsecond := yields_secondOperand (s := u.awaiting .jump) hright rfl hreading.scope
    (hsize ▸ hfirst.2.1) (hreading.right_bound rfl) hle hstop.1 (by decide)
  rw [hsize] at hsecond
  have hpatch := hsecond.bind (fun _ => yields_patchJump Chunk.isForward_jump ..)
    (fun _ => respects_patchJump _) rfl
  have hend : s.through blocks (.or left token right) rest =
      (u.past right.last rest).append
        (jump .jump (secondOperand blocks s.chunk.constants.size left token.val right).size
          token.val.line ++ secondOperand blocks s.chunk.constants.size left token.val right) := by
    simp only [u, t, State.through, State.past_append_past, State.append_append, Expr.lower,
      Lowering.append_assoc]
    rfl
  rw [infixForm, hend]
  rw [bind_assoc] at hpatch
  exact Yields.after (emitJump_apply .jumpIfFalse t)
    (Yields.after hopened (Yields.after hclosed hpatch (by simp [u])) (by simp)) (by simp [t])

/-- Every grouped expression compiles to its code. -/
theorem leads_of_grouped {e : Expr} (h : e.Grouped) : Leads e := by
  induction e with
  | constant value word => exact leads_constant value word
  | number token value reads => exact leads_number token value reads
  | string token => exact leads_string token
  | name token => exact leads_name token
  | assign target equal value ih => exact leads_assign (ih h).compiles
  | grouping left inner right ih => exact leads_grouping (ih h).compiles
  | unary operator token operand ih =>
    obtain ⟨hoperand, hlevel⟩ := h
    exact leads_unary (ih hoperand).compiles hlevel
  | binary operator left token right ihl ihr =>
    obtain ⟨hleft, hright, hle, hlt⟩ := h
    exact leads_binary (ihl hleft) (ihr hright).compiles hle hlt
  | and left token right ihl ihr =>
    obtain ⟨hleft, hright, hlt, hle⟩ := h
    exact leads_and (ihl hleft) (ihr hright).compiles hlt hle
  | or left token right ihl ihr =>
    obtain ⟨hleft, hright, hlt, hle⟩ := h
    exact leads_or (ihl hleft) (ihr hright).compiles hlt hle

/-- A grouped expression compiles to its code. -/
theorem compiles_of_grouped {e : Expr} (h : e.Grouped) : Compiles e :=
  (leads_of_grouped h).compiles

end Compile

end StackScript
