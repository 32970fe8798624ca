import StackScript.Proofs.Tree.OuterLocals

/-!
# A statement inside more blocks

A statement that the compiler accepts by itself is accepted inside any blocks as well, as long as
there is room for its constants and its locals. Its code has the same size there, with jumps over
the same distances, and its locals find the same names in the blocks of its own.

* **`wordCount`**: the number of tokens that can ask for a constant or a slot.
* **`SameLayout`**: two pieces of code of the same size and with the same distances.
* **`Stmt.scoped_of_scoped_nil`**, **`Stmt.limits_of_limits_nil`**: what a statement keeps by itself
  it keeps inside blocks.
-/

namespace StackScript

/-! ## Words

Only numbers, strings and identifiers are compiled to constants, and identifiers to locals. -/

/-- The kinds of tokens for which the compiler may need a constant or a slot. -/
def Kind.isWord : Kind → Bool
  | .identifier | .number | .string => true
  | _ => false

/-- The number of identifiers, numbers and strings. -/
def wordCount (tokens : List Token) : Nat :=
  tokens.countP (·.kind.isWord)

@[simp] theorem wordCount_nil : wordCount [] = 0 := rfl

/-- The words of two sequences of tokens add up. -/
@[simp] theorem wordCount_append (a b : List Token) :
    wordCount (a ++ b) = wordCount a + wordCount b :=
  List.countP_append

@[simp] theorem wordCount_cons (token : Token) (rest : List Token) :
    wordCount (token :: rest) = token.kind.isWord.toNat + wordCount rest := by
  rw [wordCount, List.countP_cons, Nat.add_comm, wordCount]
  cases token.kind.isWord <;> rfl

/-- A token that is a word counts once. -/
theorem wordCount_cons_of_isWord {kind : Kind} (h : kind.isWord = true) (t : TokenOf kind)
    (rest : List Token) : wordCount (t.val :: rest) = 1 + wordCount rest := by
  rw [wordCount_cons, t.property, h, Bool.toNat_true]

/-! ## Layout

Two pieces of code with the same layout have their instructions at the same places and their jumps
of the same lengths. They may refer to other constants and slots. -/

namespace Lowering

/-- Two pieces of code of the same size with the same distances. -/
structure SameLayout (l l' : Lowering) : Prop where
  size : l'.size = l.size
  distances : l'.distances = l.distances

variable {a a' b b' : Lowering}

theorem SameLayout.refl (l : Lowering) : SameLayout l l := ⟨rfl, rfl⟩

/-- Pieces with the same layout can be exchanged in a sequence. -/
theorem SameLayout.append (ha : SameLayout a a') (hb : SameLayout b b') :
    SameLayout (a ++ b) (a' ++ b') where
  size := by rw [size_append, size_append, ha.size, hb.size]
  distances := by rw [distances_append, distances_append, ha.distances, hb.distances]

theorem sameLayout_pool (values values' : List Value) :
    SameLayout (pool values) (pool values') := ⟨rfl, rfl⟩

/-- Instructions of the same width. -/
theorem sameLayout_instruction {i i' : Instruction} (h : i'.width = i.width) (line line' : Nat) :
    SameLayout (instruction i line) (instruction i' line') := ⟨h, rfl⟩

/-- A jump over code of the same size. -/
theorem sameLayout_jump (make : UInt16 → Instruction) {distance distance' : Nat}
    (h : distance' = distance) (line : Nat) :
    SameLayout (jump make distance line) (jump make distance' line) := by
  subst h
  exact .refl _

end Lowering

namespace Tree

open Lowering (SameLayout sameLayout_pool sameLayout_instruction sameLayout_jump)
open Lowering (instruction instructions pool jump)

/-- Conditionals whose branches have the same layouts. -/
theorem sameLayout_lowerBranches {line between : Nat} {first first' second second' : Lowering}
    (hfirst : SameLayout first first') (hsecond : SameLayout second second') :
    SameLayout (lowerBranches line first between second)
      (lowerBranches line first' between second') := by
  have hover : first'.size + 3 = first.size + 3 := by rw [hfirst.size]
  exact (((sameLayout_jump _ hover line).append hfirst).append
    (sameLayout_jump _ hsecond.size between)).append hsecond

/-- Code that may be missing is missing in both pieces or in none. -/
inductive OptionSameLayout : Option Lowering → Option Lowering → Prop
  | none : OptionSameLayout none none
  | some {code code' : Lowering} (h : SameLayout code code') :
      OptionSameLayout (some code) (some code')

/-- A clause of a loop that is compiled in two ways, if it is there. -/
theorem optionSameLayout_map {α : Type} (value : Option α) {f f' : α → Lowering}
    (h : ∀ x, SameLayout (f x) (f' x)) : OptionSameLayout (value.map f) (value.map f') := by
  cases value with
  | none => exact .none
  | some x => exact .some (h x)

/-- Loops whose clauses and bodies have the same layouts. -/
theorem sameLayout_lowerLoop {test test' increment increment' : Option Lowering}
    {body body' : Lowering} (htest : OptionSameLayout test test')
    (hincrement : OptionSameLayout increment increment') (hbody : SameLayout body body')
    (enter leave line : Nat) :
    SameLayout (lowerLoop test enter increment leave body line)
      (lowerLoop test' enter increment' leave body' line) := by
  have hsize := hbody.size
  have htestSize : testSize test' = testSize test := by
    cases htest with
    | none => rfl
    | some hcode => rw [testSize, testSize, hcode.size]
  have hstep : SameLayout (lowerIncrement enter leave (testSize test) increment)
      (lowerIncrement enter leave (testSize test') increment') := by
    rw [htestSize]
    cases hincrement with
    | none => exact .refl _
    | some hcode =>
      have hcodeSize := hcode.size
      exact ((sameLayout_jump _ (by omega) enter).append hcode).append
        (sameLayout_jump _ (by omega) leave)
  have hskip := hstep.size
  -- all distances are sums of sizes, so they are the same as well
  have hround : roundSize test' increment' = roundSize test increment := by
    cases hincrement with
    | none => exact htestSize
    | some hcode => rw [roundSize, roundSize, hcode.size]
  have hfirst : SameLayout
      (lowerTest enter ((lowerIncrement enter leave (testSize test) increment).size +
        body.size + 3) test)
      (lowerTest enter ((lowerIncrement enter leave (testSize test') increment').size +
        body'.size + 3) test') := by
    cases htest with
    | none => exact .refl _
    | some hcode => exact (hcode.append (sameLayout_jump _ (by omega) enter)).append (.refl _)
  have hexit : SameLayout (lowerExit line test) (lowerExit line test') := by
    cases htest <;> exact .refl _
  exact (((hfirst.append hstep).append hbody).append (sameLayout_jump _ (by omega) line)).append
    hexit

/-! ## The layout of trees

Neither the locals around a tree nor the constants before it change how long an instruction is. -/

/-- Locals and globals are reached by instructions of the same width. -/
theorem width_reach (names names' : List String) (base base' : Nat) (name : String) :
    (reach names' base' name).get.width = (reach names base name).get.width ∧
      (reach names' base' name).set.width = (reach names base name).set.width := by
  have hwidths : ∀ (names : List String) (base : Nat),
      (reach names base name).get.width = 2 ∧ (reach names base name).set.width = 2 := by
    intro names base
    unfold reach
    split <;> exact ⟨rfl, rfl⟩
  rw [(hwidths names base).1, (hwidths names base).2]
  exact hwidths names' base'

theorem sameLayout_literal (value : Value) (base base' line : Nat) :
    SameLayout (pool [value] ++ instruction (.constant base.toUInt8) line)
      (pool [value] ++ instruction (.constant base'.toUInt8) line) := ⟨rfl, rfl⟩

/-- The layout of an expression does not depend on where it is compiled. -/
theorem Expr.sameLayout (e : Expr) (names names' : List String) (base base' : Nat) :
    SameLayout (e.lower names base) (e.lower names' base') := by
  induction e generalizing base base' with
  | constant value word => exact .refl _
  | number token value reads => exact sameLayout_literal _ _ _ _
  | string token => exact sameLayout_literal _ _ _ _
  | name token =>
    have hwidth := width_reach names names' base base' token.val.lexeme
    exact (sameLayout_pool _ _).append (sameLayout_instruction hwidth.1 _ _)
  | assign target equal value ih =>
    have hwidth := width_reach names names' base base' target.val.lexeme
    exact ((sameLayout_pool _ _).append (ih _ _)).append (sameLayout_instruction hwidth.2 _ _)
  | grouping left inner right ih => exact ih base base'
  | unary operator token operand ih => exact (ih base base').append (.refl _)
  | binary operator left token right ihleft ihright =>
    exact ((ihleft base base').append (ihright _ _)).append (.refl _)
  -- the jump is over the second operand, whose size is the same
  | and left token right ihleft ihright =>
    have hsecond := (SameLayout.refl (instruction .pop token.val.line)).append
      (ihright (base + (left.lower names base).constants.length)
        (base' + (left.lower names' base').constants.length))
    exact ((ihleft base base').append (sameLayout_jump _ hsecond.size _)).append hsecond
  | or left token right ihleft ihright =>
    have hsecond := (SameLayout.refl (instruction .pop token.val.line)).append
      (ihright (base + (left.lower names base).constants.length)
        (base' + (left.lower names' base').constants.length))
    rw [Expr.lower_or, Expr.lower_or]
    exact (ihleft base base').append (sameLayout_lowerBranches (.refl _) hsecond)

/-- Nor does that of the value of a variable. -/
theorem VarDecl.sameLayout_lowerValue (d : VarDecl) (names names' : List String)
    (base base' : Nat) : SameLayout (d.lowerValue names base) (d.lowerValue names' base') := by
  obtain ⟨name, initializer, semicolon⟩ := d
  cases initializer with
  | none => exact .refl _
  | some initializer => exact initializer.2.sameLayout names names' base base'

/-- Inside a block the first clause of a loop has the same layout whatever is around the block. -/
theorem ForStart.sameLayout (start : ForStart) (block : List String) (outer more : Blocks)
    (base base' : Nat) :
    SameLayout (start.lower (block :: outer) base)
      (start.lower (block :: outer ++ more) base') := by
  cases start with
  | none semicolon => exact .refl _
  | declaration keyword declared => exact declared.sameLayout_lowerValue _ _ _ _
  | expression value semicolon => exact (value.sameLayout _ _ _ _).append (.refl _)

mutual

/-- More blocks around a statement do not change the layout of its code. -/
theorem Stmt.sameLayout (t : Stmt) (blocks more : Blocks) (base base' : Nat) :
    SameLayout (t.lower blocks base) (t.lower (blocks ++ more) base') := by
  match t with
  | .print keyword value semicolon | .expression value semicolon =>
    rw [Stmt.lower, Stmt.lower]
    exact (value.sameLayout _ _ _ _).append (.refl _)
  | .conditional keyword condition body otherwise =>
    rw [Stmt.lower, Stmt.lower]
    exact (condition.value.sameLayout _ _ _ _).append (sameLayout_lowerBranches
      ((SameLayout.refl _).append (body.sameLayout blocks more _ _))
      ((SameLayout.refl _).append (otherwise.sameLayout blocks more _ _)))
  | .whileLoop keyword condition body =>
    rw [Stmt.lower, Stmt.lower]
    exact sameLayout_lowerLoop (.some (condition.value.sameLayout _ _ _ _)) .none
      (body.sameLayout blocks more _ _) _ _ _
  | .forLoop keyword clauses body =>
    -- what is dropped in the end are the locals of the loop, whatever is around it
    have hcount := innermost_append (clauses.start.blocks_cons [] blocks) more
    rw [Stmt.lower, Stmt.lower, ← List.cons_append, clauses.start.blocks_append, hcount]
    refine ((clauses.start.sameLayout [] blocks more _ _).append (sameLayout_lowerLoop ?_ ?_
      (body.sameLayout _ more _ _) _ _ _)).append (.refl _)
    · exact optionSameLayout_map _ fun e => e.sameLayout _ _ _ _
    · exact optionSameLayout_map _ fun e => (e.sameLayout _ _ _ _).append (.refl _)
  | .block left body right =>
    have hcount := innermost_append (body.blocks_cons [] blocks) more
    rw [Stmt.lower, Stmt.lower, ← List.cons_append, body.blocks_append, hcount]
    exact (body.sameLayout [] blocks more _ _).append (.refl _)

/-- The same for an `else` branch. -/
theorem Else.sameLayout (o : Else) (blocks more : Blocks) (base base' : Nat) :
    SameLayout (o.lower blocks base) (o.lower (blocks ++ more) base') := by
  match o with
  | .none =>
    rw [Else.lower, Else.lower]
    exact .refl _
  | .branch keyword body =>
    rw [Else.lower, Else.lower]
    exact body.sameLayout blocks more base base'

/-- The same for the declarations of a block. -/
theorem Decls.sameLayout (ds : Decls) (block : List String) (outer more : Blocks)
    (base base' : Nat) :
    SameLayout (ds.lower (block :: outer) base) (ds.lower (block :: outer ++ more) base') := by
  match ds with
  | .nil =>
    rw [Decls.lower, Decls.lower]
    exact .refl _
  | .declaration keyword declared rest =>
    rw [Decls.lower, Decls.lower]
    exact (declared.sameLayout_lowerValue _ _ _ _).append
      (rest.sameLayout (declared.name.val.lexeme :: block) outer more _ _)
  | .statement first rest =>
    rw [Decls.lower, Decls.lower]
    exact (first.sameLayout (block :: outer) more _ _).append
      (rest.sameLayout block outer more _ _)

end

/-! ## The constants of trees

Each constant comes from a word of its own. -/

/-- A name takes at most one constant. -/
theorem length_nameConstants_le (names : List String) (name : String) :
    (nameConstants names name).length ≤ 1 := by
  unfold nameConstants
  split
  · exact Nat.zero_le 1
  · exact Nat.le_refl 1

/-- An expression brings no more constants than it has words. -/
theorem Expr.length_constants_le (e : Expr) (names : List String) (base : Nat) :
    (e.lower names base).constants.length ≤ wordCount e.tokens := by
  induction e generalizing base with
  | constant value word => exact Nat.zero_le _
  | number token value reads | string token =>
    rw [Expr.tokens, wordCount_cons_of_isWord rfl]
    exact Nat.le_refl 1
  | name token =>
    rw [Expr.tokens, wordCount_cons_of_isWord rfl]
    simpa [Expr.lower] using length_nameConstants_le names token.val.lexeme
  -- the name is a word of its own
  | assign target equal value ih =>
    have hname := length_nameConstants_le names target.val.lexeme
    have hvalue := ih (base + (nameConstants names target.val.lexeme).length)
    rw [Expr.tokens, wordCount_cons_of_isWord rfl, wordCount_cons]
    simp only [Expr.lower, Lowering.constants_append, Lowering.constants_pool,
      Lowering.constants_instruction, List.length_append, List.length_nil]
    omega
  | grouping left inner right ih =>
    have hinner := ih base
    simp only [Expr.lower, Expr.tokens, wordCount_cons, wordCount_append]
    omega
  | unary operator token operand ih =>
    have hoperand := ih base
    simp only [Expr.lower, Expr.tokens, Lowering.constants_append,
      Lowering.constants_instruction, List.append_nil, wordCount_cons]
    omega
  | binary operator left token right ihleft ihright
  | and left token right ihleft ihright
  | or left token right ihleft ihright =>
    have hleft := ihleft base
    have hright := ihright (base + (left.lower names base).constants.length)
    simp only [Expr.lower, Expr.tokens, Lowering.constants_append,
      Lowering.constants_instruction, Lowering.constants_instructions, Lowering.constants_jump,
      List.append_nil, List.nil_append, List.length_append, wordCount_cons, wordCount_append]
    omega

/-- A declaration brings no more constants than it has words. -/
theorem VarDecl.length_constants_le (d : VarDecl) (blocks : Blocks) (base : Nat) :
    (d.lower blocks base).constants.length ≤ wordCount d.tokens := by
  obtain ⟨name, initializer, semicolon⟩ := d
  have hvalue : ∀ (names : List String) (base : Nat),
      ((VarDecl.mk name initializer semicolon).lowerValue names base).constants.length + 1 ≤
        wordCount (VarDecl.mk name initializer semicolon).tokens := by
    intro names base
    cases initializer with
    | none =>
      rw [VarDecl.tokens, wordCount_cons_of_isWord rfl]
      exact Nat.le_add_right 1 _
    | some initializer =>
      have hle := initializer.2.length_constants_le names base
      rw [VarDecl.tokens, wordCount_cons_of_isWord rfl, wordCount_cons, wordCount_append]
      show (initializer.2.lower names base).constants.length + 1 ≤ _
      omega
  cases blocks with
  | nil =>
    have hle := hvalue [] (base + 1)
    simp only [VarDecl.lower, Lowering.constants_append, Lowering.constants_pool,
      Lowering.constants_instruction, List.length_append, List.length_cons, List.length_nil]
    omega
  | cons block outer => exact Nat.le_of_succ_le (hvalue (block :: outer).flatten base)

/-- Nor does the first clause of a loop. -/
theorem ForStart.length_constants_le (start : ForStart) (blocks : Blocks) (base : Nat) :
    (start.lower blocks base).constants.length ≤ wordCount start.tokens := by
  cases start with
  | none semicolon => exact Nat.zero_le _
  | declaration keyword declared =>
    have hle := declared.length_constants_le blocks base
    simp only [ForStart.lower, ForStart.tokens, wordCount_cons]
    omega
  | expression value semicolon =>
    have hle := value.length_constants_le blocks.flatten base
    simp only [ForStart.lower, ForStart.tokens, Lowering.constants_append,
      Lowering.constants_instruction, List.append_nil, wordCount_append]
    omega

/-- Nor does a clause that may be missing. -/
theorem constantCount_map_le {lower : Expr → Lowering}
    (h : ∀ e : Expr, (lower e).constants.length ≤ wordCount e.tokens) (value : Option Expr) :
    constantCount (value.map lower) ≤ wordCount (optionalTokens value) := by
  cases value with
  | none => exact Nat.le_refl 0
  | some e => exact h e

theorem length_constants_lowerDiscarded_le (names : List String) (base : Nat) (e : Expr) :
    (lowerDiscarded names base e).constants.length ≤ wordCount e.tokens := by
  have hle := e.length_constants_le names base
  simpa [lowerDiscarded] using hle

mutual

/-- A statement adds no more constants than it has words. -/
theorem Stmt.length_constants_le (t : Stmt) (blocks : Blocks) (base : Nat) :
    (t.lower blocks base).constants.length ≤ wordCount t.tokens := by
  match t with
  | .print keyword value semicolon | .expression value semicolon =>
    have hvalue := value.length_constants_le blocks.flatten base
    simp only [Stmt.lower, Stmt.tokens, Lowering.constants_append,
      Lowering.constants_instruction, List.append_nil, wordCount_cons, wordCount_append]
    omega
  | .conditional keyword condition body otherwise =>
    rw [Stmt.lower, Stmt.tokens, Condition.tokens]
    simp only [Lowering.constants_append, List.length_append, length_constants_lowerBranches,
      Lowering.constants_instruction, List.nil_append, wordCount_cons, wordCount_append]
    refine Nat.le_trans (Nat.add_le_add (condition.value.length_constants_le _ _)
      (Nat.add_le_add (body.length_constants_le _ _) (otherwise.length_constants_le _ _))) ?_
    omega
  | .whileLoop keyword condition body =>
    rw [Stmt.lower, Stmt.tokens, Condition.tokens]
    simp only [length_constants_lowerLoop, constantCount, wordCount_cons, wordCount_append]
    refine Nat.le_trans (Nat.add_le_add (Nat.add_le_add_right
      (condition.value.length_constants_le _ _) 0) (body.length_constants_le _ _)) ?_
    omega
  -- each clause has at most as many constants as words
  | .forLoop keyword clauses body =>
    rw [Stmt.lower, Stmt.tokens, ForClauses.tokens]
    simp only [Lowering.constants_append, List.length_append, length_constants_lowerLoop,
      dropLocals, Lowering.constants_instructions, List.length_nil, wordCount_cons,
      wordCount_append]
    refine Nat.le_trans (Nat.add_le_add_right (Nat.add_le_add
      (clauses.start.length_constants_le _ _) (Nat.add_le_add (Nat.add_le_add
        (constantCount_map_le (fun e => e.length_constants_le _ _) _)
        (constantCount_map_le (length_constants_lowerDiscarded_le _ _) _))
        (body.length_constants_le _ _))) 0) ?_
    omega
  | .block left body right =>
    have hbody := body.length_constants_le ([] :: blocks) base
    simp only [Stmt.lower, Stmt.tokens, Lowering.constants_append, dropLocals,
      Lowering.constants_instructions, List.append_nil, wordCount_cons, wordCount_append]
    omega

/-- The same for an `else` branch. -/
theorem Else.length_constants_le (o : Else) (blocks : Blocks) (base : Nat) :
    (o.lower blocks base).constants.length ≤ wordCount o.tokens := by
  match o with
  | .none => exact Nat.zero_le _
  | .branch keyword body =>
    have hbody := body.length_constants_le blocks base
    simp only [Else.lower, Else.tokens, wordCount_cons]
    omega

/-- The same for a list of declarations. -/
theorem Decls.length_constants_le (ds : Decls) (blocks : Blocks) (base : Nat) :
    (ds.lower blocks base).constants.length ≤ wordCount ds.tokens := by
  match ds with
  | .nil => exact Nat.zero_le _
  | .declaration keyword declared rest =>
    have hfirst := declared.length_constants_le blocks base
    have hrest := rest.length_constants_le (blocks.declare declared.name.val.lexeme)
      (base + (declared.lower blocks base).constants.length)
    simp only [Decls.lower, Decls.tokens, Lowering.constants_append, List.length_append,
      wordCount_cons, wordCount_append]
    omega
  | .statement first rest =>
    have hfirst := first.length_constants_le blocks base
    have hrest := rest.length_constants_le blocks
      (base + (first.lower blocks base).constants.length)
    simp only [Decls.lower, Decls.tokens, Lowering.constants_append, List.length_append,
      wordCount_append]
    omega

end

/-! ## The locals of trees

Blocks around a statement are around its locals too, and there are no more locals around a local
than there are words before it. -/

theorem ForStart.locals_append_blocks (start : ForStart) (block : List String)
    (outer more : Blocks) :
    start.locals (block :: outer ++ more) =
      (start.locals (block :: outer)).map fun l => (l.1 ++ more, l.2) := by
  cases start <;> rfl

mutual

/-- The locals of a statement inside more blocks are the same, with these blocks around them. -/
theorem Stmt.locals_append_blocks (t : Stmt) (blocks more : Blocks) :
    t.locals (blocks ++ more) = (t.locals blocks).map fun l => (l.1 ++ more, l.2) := by
  match t with
  | .print keyword value semicolon | .expression value semicolon =>
    simp only [Stmt.locals, List.map_nil]
  | .conditional keyword condition body otherwise =>
    rw [Stmt.locals, Stmt.locals, List.map_append, body.locals_append_blocks,
      otherwise.locals_append_blocks]
  | .whileLoop keyword condition body =>
    rw [Stmt.locals, Stmt.locals, body.locals_append_blocks]
  | .forLoop keyword clauses body =>
    rw [Stmt.locals, Stmt.locals, List.map_append, ← List.cons_append,
      clauses.start.locals_append_blocks, clauses.start.blocks_append, body.locals_append_blocks]
  | .block left body right =>
    rw [Stmt.locals, Stmt.locals, ← List.cons_append, body.locals_append_blocks]

/-- The same for an `else` branch. -/
theorem Else.locals_append_blocks (o : Else) (blocks more : Blocks) :
    o.locals (blocks ++ more) = (o.locals blocks).map fun l => (l.1 ++ more, l.2) := by
  match o with
  | .none => simp only [Else.locals, List.map_nil]
  | .branch keyword body => rw [Else.locals, Else.locals, body.locals_append_blocks]

/-- The same for the declarations of a block. -/
theorem Decls.locals_append_blocks (ds : Decls) (block : List String) (outer more : Blocks) :
    ds.locals (block :: outer ++ more) =
      (ds.locals (block :: outer)).map fun l => (l.1 ++ more, l.2) := by
  match ds with
  | .nil => simp only [Decls.locals, List.map_nil]
  | .declaration keyword declared rest =>
    rw [Decls.locals, Decls.locals, List.map_append]
    exact congrArg (declared.locals (block :: outer ++ more) ++ ·)
      (rest.locals_append_blocks (declared.name.val.lexeme :: block) outer more)
  | .statement first rest =>
    rw [Decls.locals, Decls.locals, List.map_append, first.locals_append_blocks,
      rest.locals_append_blocks]

end

/-- The name of a variable is a word. -/
theorem VarDecl.one_le_wordCount (d : VarDecl) : 1 ≤ wordCount d.tokens := by
  obtain ⟨name, initializer, semicolon⟩ := d
  cases initializer with
  | none =>
    rw [VarDecl.tokens, wordCount_cons_of_isWord rfl]
    exact Nat.le_add_right 1 _
  | some initializer =>
    rw [VarDecl.tokens, wordCount_cons_of_isWord rfl]
    exact Nat.le_add_right 1 _

/-- A declaration adds at most one local. -/
theorem length_flatten_declare_le (blocks : Blocks) (name : String) :
    (blocks.declare name).flatten.length ≤ blocks.flatten.length + 1 := by
  cases blocks with
  | nil => exact Nat.zero_le _
  | cons block outer => exact Nat.le_of_eq (by simp [Blocks.declare])

/-- A local in some block, of which the blocks around it are counted. -/
def FewAround (limit : Nat) (l : Blocks × VarDecl) : Prop :=
  l.1 ≠ [] ∧ l.1.flatten.length + 1 ≤ limit

/-- A limit may be raised. -/
theorem FewAround.mono {limit limit' : Nat} {l : Blocks × VarDecl} (h : FewAround limit l)
    (hle : limit ≤ limit') : FewAround limit' l :=
  ⟨h.1, Nat.le_trans h.2 hle⟩

/-- The locals around a variable are those around its declaration. -/
theorem VarDecl.fewAround_locals (d : VarDecl) (blocks : Blocks) :
    ∀ l ∈ d.locals blocks, FewAround (blocks.flatten.length + wordCount d.tokens) l := by
  intro l hl
  cases blocks with
  | nil => cases hl
  | cons block outer =>
    cases List.mem_singleton.mp hl
    exact ⟨List.cons_ne_nil _ _, Nat.add_le_add_left d.one_le_wordCount _⟩

theorem ForStart.fewAround_locals (start : ForStart) (blocks : Blocks) :
    ∀ l ∈ start.locals blocks, FewAround (blocks.flatten.length + wordCount start.tokens) l := by
  intro l hl
  cases start with
  | none semicolon => cases hl
  | declaration keyword declared =>
    rw [ForStart.tokens, wordCount_cons]
    exact (declared.fewAround_locals blocks l hl).mono (by omega)
  | expression value semicolon => cases hl

/-- The first clause of a loop adds at most one local. -/
theorem ForStart.length_flatten_blocks_le (start : ForStart) (blocks : Blocks) :
    (start.blocks blocks).flatten.length ≤ blocks.flatten.length + wordCount start.tokens := by
  cases start with
  | none semicolon => exact Nat.le_add_right _ _
  | declaration keyword declared =>
    have hdeclared := length_flatten_declare_le blocks declared.name.val.lexeme
    have hword := declared.one_le_wordCount
    rw [ForStart.tokens, wordCount_cons, ForStart.blocks]
    omega
  | expression value semicolon => exact Nat.le_add_right _ _

mutual

/-- Around a local of a statement there are those around the statement, and at most one for each
word before it. -/
theorem Stmt.fewAround_locals (t : Stmt) (blocks : Blocks) :
    ∀ l ∈ t.locals blocks, FewAround (blocks.flatten.length + wordCount t.tokens) l := by
  match t with
  | .print keyword value semicolon | .expression value semicolon =>
    intro l hl
    simp only [Stmt.locals, List.not_mem_nil] at hl
  | .conditional keyword condition body otherwise =>
    intro l hl
    simp only [Stmt.tokens, wordCount_cons, wordCount_append]
    rw [Stmt.locals] at hl
    rcases List.mem_append.mp hl with hl | hl
    · exact (body.fewAround_locals blocks l hl).mono (by omega)
    · exact (otherwise.fewAround_locals blocks l hl).mono (by omega)
  | .whileLoop keyword condition body =>
    intro l hl
    simp only [Stmt.tokens, wordCount_cons, wordCount_append]
    rw [Stmt.locals] at hl
    exact (body.fewAround_locals blocks l hl).mono (by omega)
  | .forLoop keyword clauses body =>
    intro l hl
    simp only [Stmt.tokens, ForClauses.tokens, wordCount_cons, wordCount_append]
    rw [Stmt.locals] at hl
    have hopened : ([] :: blocks).flatten.length = blocks.flatten.length := rfl
    rcases List.mem_append.mp hl with hl | hl
    -- around the variable of the loop there is what is around the loop
    · have hstart := clauses.start.fewAround_locals ([] :: blocks) l hl
      exact hstart.mono (by omega)
    -- around a local of the body there is the variable of the loop too
    · have hbody := body.fewAround_locals (clauses.start.blocks ([] :: blocks)) l hl
      have hinner := clauses.start.length_flatten_blocks_le ([] :: blocks)
      exact hbody.mono (by omega)
  | .block left body right =>
    intro l hl
    simp only [Stmt.tokens, wordCount_cons, wordCount_append]
    rw [Stmt.locals] at hl
    have hopened : ([] :: blocks).flatten.length = blocks.flatten.length := rfl
    exact (body.fewAround_locals ([] :: blocks) l hl).mono (by omega)

/-- The same for an `else` branch. -/
theorem Else.fewAround_locals (o : Else) (blocks : Blocks) :
    ∀ l ∈ o.locals blocks, FewAround (blocks.flatten.length + wordCount o.tokens) l := by
  match o with
  | .none =>
    intro l hl
    simp only [Else.locals, List.not_mem_nil] at hl
  | .branch keyword body =>
    intro l hl
    simp only [Else.tokens, wordCount_cons]
    rw [Else.locals] at hl
    exact (body.fewAround_locals blocks l hl).mono (by omega)

/-- The same for a list of declarations, each of which may add to the locals around the next. -/
theorem Decls.fewAround_locals (ds : Decls) (blocks : Blocks) :
    ∀ l ∈ ds.locals blocks, FewAround (blocks.flatten.length + wordCount ds.tokens) l := by
  match ds with
  | .nil =>
    intro l hl
    simp only [Decls.locals, List.not_mem_nil] at hl
  | .declaration keyword declared rest =>
    intro l hl
    simp only [Decls.tokens, wordCount_cons, wordCount_append]
    rw [Decls.locals] at hl
    rcases List.mem_append.mp hl with hl | hl
    · exact (declared.fewAround_locals blocks l hl).mono (by omega)
    · have hrest := rest.fewAround_locals (blocks.declare declared.name.val.lexeme) l hl
      have hdeclared := length_flatten_declare_le blocks declared.name.val.lexeme
      have hword := declared.one_le_wordCount
      exact hrest.mono (by omega)
  | .statement first rest =>
    intro l hl
    simp only [Decls.tokens, wordCount_append]
    rw [Decls.locals] at hl
    rcases List.mem_append.mp hl with hl | hl
    · exact (first.fewAround_locals blocks l hl).mono (by omega)
    · exact (rest.fewAround_locals blocks l hl).mono (by omega)

end

/-! ## Statements that fit

A statement that fits outside of all blocks fits inside some, if there is room for their locals and
constants. -/

/-- Blocks around a block do not change what is declared in it. -/
theorem innermost_append_of_ne_nil {blocks : Blocks} (h : blocks ≠ []) (more : Blocks) :
    innermost (blocks ++ more) = innermost blocks := by
  cases blocks with
  | nil => exact absurd rfl h
  | cons block outer => rfl

/-- Blocks around a statement do not keep its locals from being declared, if there are slots. -/
theorem Stmt.scoped_of_scoped_nil {t : Stmt} (h : Scoped (t.locals [])) {blocks : Blocks}
    (hroom : blocks.flatten.length + wordCount t.tokens ≤ Compile.Scope.maxLocals) :
    Scoped (t.locals blocks) := by
  intro l' hl'
  have hfew := t.fewAround_locals blocks l' hl'
  have hlocals := t.locals_append_blocks [] blocks
  rw [List.nil_append] at hlocals
  rw [hlocals] at hl'
  obtain ⟨l, hl, rfl⟩ := List.mem_map.mp hl'
  have hadmitted := h l hl
  refine ⟨?_, hadmitted.isIndependent, Nat.le_trans hfew.2 hroom⟩
  show l.2.name.val.lexeme ∉ innermost (l.1 ++ blocks)
  rw [innermost_append_of_ne_nil (t.fewAround_locals [] l hl).1]
  exact hadmitted.isNew

/-- Nor do they make its jumps longer. -/
theorem Stmt.limits_of_limits_nil {t : Stmt} {base : Nat} (h : (t.lower [] base).Limits base)
    {blocks : Blocks} {base' : Nat} (hroom : base' + wordCount t.tokens ≤ Chunk.maxConstants) :
    (t.lower blocks base').Limits base' := by
  have hlayout := t.sameLayout [] blocks base base'
  rw [List.nil_append] at hlayout
  refine ⟨?_, ?_⟩
  · exact Nat.le_trans (Nat.add_le_add_left (t.length_constants_le blocks base') base') hroom
  · rw [hlayout.distances]
    exact h.2

end Tree

end StackScript
