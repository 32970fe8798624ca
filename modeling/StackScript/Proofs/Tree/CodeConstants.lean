import StackScript.Proofs.Tree.CodeFlow

/-!
# The constants of the code of a tree

Each constant is added for one instruction, although not always right before it: the name of an
assigned global is added before the constants of the value. So the indices in the code are those of
the pool in some order, each of them once.

* **`Lowering.Pooled`**: the code uses each of its constants once, and variables by their names.
* **`Expr.pooled`**, **`Stmt.pooled`**, **`Decls.pooled`**: the code of a tree does.
-/

namespace StackScript

namespace Instruction

/-- The index of the constant that the instruction uses. -/
def constant? : Instruction → Option UInt8
  | constant index | getGlobal index | defineGlobal index | setGlobal index => some index
  | _ => none

/-- The index of the name of the global that the instruction uses. -/
def globalName? : Instruction → Option UInt8
  | getGlobal index | defineGlobal index | setGlobal index => some index
  | _ => none

/-- A name of a global is a constant. -/
theorem constant?_of_globalName? {i : Instruction} {index : UInt8} (h : index ∈ i.globalName?) :
    i.constant? = some index := by
  cases i <;> first | exact h | cases h

/-- The indices of the constants that the code uses, in the order of the code. -/
def constantIndices (ops : List Instruction) : List Nat :=
  ops.filterMap fun i => i.constant?.map UInt8.toNat

theorem constantIndices_append (a b : List Instruction) :
    constantIndices (a ++ b) = constantIndices a ++ constantIndices b :=
  List.filterMap_append

/-- The constant of each instruction is among those that are used. -/
theorem mem_constantIndices {ops : List Instruction} {i : Instruction} {index : UInt8}
    (hi : i ∈ ops) (h : i.constant? = some index) : index.toNat ∈ constantIndices ops :=
  List.mem_filterMap.mpr ⟨i, hi, by rw [h]; rfl⟩

end Instruction

open Instruction (constantIndices constantIndices_append mem_constantIndices
  constant?_of_globalName?)

/-! ## Pieces of code

Each constant of a piece is used by one instruction of it, and in the order of the constants. -/

namespace Lowering

/-- After `base` constants, the code uses each of its own constants in one instruction, and those
that name variables are strings. -/
structure Pooled (base : Nat) (l : Lowering) : Prop where
  indices : (constantIndices l.ops).Perm (List.range' base l.constants.length)
  names : ∀ i ∈ l.ops, ∀ index ∈ i.globalName?,
    ∃ name, l.constants[index.toNat - base]? = some (.string name)

/-- The indices of a piece are those of its own constants. -/
theorem Pooled.bounds {base : Nat} {l : Lowering} (h : l.Pooled base) {i : Instruction}
    (hi : i ∈ l.ops) {index : UInt8} (hindex : i.constant? = some index) :
    base ≤ index.toNat ∧ index.toNat < base + l.constants.length := by
  have := h.indices.mem_iff.mp (mem_constantIndices hi hindex)
  rw [List.mem_range'_1] at this
  exact this

/-- The constants of the second piece come after those of the first. -/
theorem Pooled.append {base : Nat} {a b : Lowering} (ha : a.Pooled base)
    (hb : b.Pooled (base + a.constants.length)) : (a ++ b).Pooled base where
  indices := by
    rw [ops_append, constantIndices_append, constants_append, List.length_append,
      ← List.range'_append_1]
    exact ha.indices.append hb.indices
  names i hi index hindex := by
    rw [ops_append, List.mem_append] at hi
    rw [constants_append]
    rcases hi with hi | hi
    · have hbounds := ha.bounds hi (constant?_of_globalName? hindex)
      rw [List.getElem?_append_left (by omega)]
      exact ha.names i hi index hindex
    · have hbounds := hb.bounds hi (constant?_of_globalName? hindex)
      rw [List.getElem?_append_right (by omega), Nat.sub_sub]
      exact hb.names i hi index hindex

/-- Instructions without constants. -/
theorem pooled_of_none {base : Nat} {l : Lowering} (hconstants : l.constants = [])
    (h : ∀ i ∈ l.ops, i.constant? = none) : l.Pooled base where
  indices := by
    rw [hconstants]
    have hindices : constantIndices l.ops = [] := by
      apply List.filterMap_eq_nil_iff.mpr
      intro i hi
      rw [h i hi]
      rfl
    rw [hindices]
    exact .nil
  names i hi index hindex := by
    have hnone := h i hi
    rw [constant?_of_globalName? hindex] at hnone
    cases hnone

theorem pooled_empty (base : Nat) : empty.Pooled base :=
  pooled_of_none rfl nofun

theorem pooled_instruction {base : Nat} {i : Instruction} (line : Nat) (h : i.constant? = none) :
    (instruction i line).Pooled base :=
  pooled_of_none rfl (by simpa using h)

/-- No jump names a constant. -/
theorem pooled_jump {base : Nat} {make : UInt16 → Instruction} (distance line : Nat)
    (h : ∀ d, (make d).constant? = none) : (jump make distance line).Pooled base :=
  pooled_of_none rfl (by simp [h])

/-- A constant is added, then other code with its constants, then the instruction that uses it. -/
theorem pooled_use {base : Nat} {value : Value} {l : Lowering} {i : Instruction} (line : Nat)
    (hbase : base < Chunk.maxConstants) (hl : l.Pooled (base + 1))
    (hindex : i.constant? = some base.toUInt8)
    (hname : i.globalName?.isSome → ∃ name, value = .string name) :
    (pool [value] ++ l ++ instruction i line).Pooled base where
  indices := by
    have hops : constantIndices (pool [value] ++ l ++ instruction i line).ops =
        constantIndices l.ops ++ [base] := by
      simp [constantIndices, hindex, toNat_toUInt8 hbase]
    rw [hops, constants_append, constants_append, constants_pool, constants_instruction,
      List.append_nil, List.length_append, List.length_singleton, Nat.add_comm 1,
      List.range'_succ]
    -- the index stands last in the code and first in the pool
    exact List.perm_append_comm.trans (.cons base hl.indices)
  names j hj index hj' := by
    rw [ops_append, ops_append, ops_pool, List.nil_append, ops_instruction, List.mem_append,
      List.mem_singleton] at hj
    rw [constants_append, constants_append, constants_pool, constants_instruction, List.append_nil]
    rcases hj with hj | rfl
    · have hbounds := hl.bounds hj (constant?_of_globalName? hj')
      rw [List.getElem?_append_right (by simp; omega), List.length_singleton, Nat.sub_sub]
      exact hl.names j hj index hj'
    · have hsame := constant?_of_globalName? hj'
      rw [hindex] at hsame
      cases hsame
      obtain ⟨name, rfl⟩ := hname (by rw [Option.mem_def.mp hj']; rfl)
      exact ⟨name, by rw [toNat_toUInt8 hbase, Nat.sub_self]; rfl⟩

end Lowering

open Lowering (instruction instructions pool jump Pooled pooled_of_none pooled_empty
  pooled_instruction pooled_jump pooled_use)

namespace Tree

variable {base : Nat}

/-! ## Branches and loops

The code that is put between the pieces names no constants. -/

/-- Both branches, in their order. -/
theorem pooled_lowerBranches {line between : Nat} {first second : Lowering}
    (hfirst : first.Pooled base) (hsecond : second.Pooled (base + first.constants.length)) :
    (lowerBranches line first between second).Pooled base := by
  have hover : (jump .jumpIfFalse (first.size + 3) line ++ first).Pooled base :=
    (pooled_jump _ _ fun _ => rfl).append hfirst
  have hpast : (jump .jumpIfFalse (first.size + 3) line ++ first ++
      jump .jump second.size between).Pooled base :=
    hover.append (pooled_jump _ _ fun _ => rfl)
  refine hpast.append ?_
  rwa [Lowering.constants_append, Lowering.constants_append, Lowering.constants_jump,
    Lowering.constants_jump, List.nil_append, List.append_nil]

/-- The test of a loop, if there is one. -/
theorem pooled_lowerTest (line rest : Nat) {test : Option Lowering}
    (h : ∀ code ∈ test, code.Pooled base) : (lowerTest line rest test).Pooled base := by
  cases test with
  | none => exact pooled_empty base
  | some code =>
    exact ((h code rfl).append (pooled_jump _ _ fun _ => rfl)).append (pooled_instruction _ rfl)

/-- The increment of a loop, if there is one. -/
theorem pooled_lowerIncrement (enter leave test : Nat) {increment : Option Lowering}
    (h : ∀ code ∈ increment, code.Pooled base) :
    (lowerIncrement enter leave test increment).Pooled base := by
  cases increment with
  | none => exact pooled_empty base
  | some code =>
    have hover : (jump .jump (code.size + 3) enter ++ code).Pooled base :=
      (pooled_jump _ _ fun _ => rfl).append (h code rfl)
    exact hover.append (pooled_jump _ _ fun _ => rfl)

/-- Leaving a loop is at most a pop. -/
theorem pooled_lowerExit (line : Nat) (test : Option Lowering) :
    (lowerExit line test).Pooled base := by
  cases test with
  | none => exact pooled_empty base
  | some _ => exact pooled_instruction line rfl

/-- Test, increment and body, in their order. -/
theorem pooled_lowerLoop {enter leave line : Nat} {test increment : Option Lowering}
    {body : Lowering} (htest : ∀ code ∈ test, code.Pooled base)
    (hincrement : ∀ code ∈ increment, code.Pooled (base + constantCount test))
    (hbody : body.Pooled (base + constantCount test + constantCount increment)) :
    (lowerLoop test enter increment leave body line).Pooled base := by
  rw [lowerLoop]
  refine (((Pooled.append (pooled_lowerTest _ _ htest) ?_).append ?_).append
    (pooled_jump _ _ fun _ => rfl)).append (pooled_lowerExit line test)
  · rw [length_constants_lowerTest]
    exact pooled_lowerIncrement _ _ _ hincrement
  · rwa [Lowering.constants_append, List.length_append, length_constants_lowerTest,
      length_constants_lowerIncrement, ← Nat.add_assoc]

/-! ## Expressions

A literal uses the constant that it adds, and so does the name of a global. -/

/-- A variable is used after other code, for which it has added its name if it is a global. -/
theorem pooled_reach {names : List String} {name : String} {l : Lowering} {i : Instruction}
    (line : Nat) (hi : i = (reach names base name).get ∨ i = (reach names base name).set)
    (hlimits : (pool (nameConstants names name) ++ l).Limits base)
    (hl : l.Pooled (base + (nameConstants names name).length)) :
    (pool (nameConstants names name) ++ l ++ instruction i line).Pooled base := by
  unfold reach at hi
  unfold nameConstants at hl hlimits ⊢
  cases hslot : slot? name names with
  | some slot =>
    simp only [hslot] at hi hl ⊢
    refine Pooled.append (Pooled.append (pooled_of_none rfl nofun) hl) (pooled_instruction line ?_)
    rcases hi with rfl | rfl <;> rfl
  | none =>
    simp only [hslot] at hi hl hlimits ⊢
    have hbase : base < Chunk.maxConstants := by
      have := hlimits.1
      simp only [Lowering.constants_append, Lowering.constants_pool, List.length_append,
        List.length_singleton] at this
      omega
    refine pooled_use line hbase hl ?_ fun _ => ⟨name, rfl⟩
    rcases hi with rfl | rfl <;> rfl

theorem Expr.pooled {names : List String} (e : Expr)
    (hlimits : (e.lower names base).Limits base) : (e.lower names base).Pooled base := by
  induction e generalizing base with
  | constant value word => exact pooled_instruction _ (by cases value <;> rfl)
  | number token value reads =>
    rw [lower, Lowering.limits_append_instruction, Lowering.limits_pool] at hlimits
    exact pooled_use _ hlimits (pooled_empty _) rfl (by simp [Instruction.globalName?])
  | string token =>
    rw [lower, Lowering.limits_append_instruction, Lowering.limits_pool] at hlimits
    exact pooled_use _ hlimits (pooled_empty _) rfl (by simp [Instruction.globalName?])
  | name token =>
    rw [lower, Lowering.limits_append_instruction] at hlimits
    have hread := pooled_reach (l := .empty) token.val.line (.inl rfl)
      (by rwa [Lowering.append_empty]) (pooled_empty _)
    rwa [Lowering.append_empty] at hread
  | assign target equal value ih =>
    rw [lower, Lowering.limits_append_instruction] at hlimits
    -- the name is put into the pool before the value is compiled, and used after it
    exact pooled_reach _ (.inr rfl) hlimits (ih (Lowering.limits_append.mp hlimits).2)
  | grouping left inner right ih => exact ih hlimits
  | unary operator token operand ih =>
    rw [lower, Lowering.limits_append_instruction] at hlimits
    exact (ih hlimits).append (pooled_instruction _ (by cases operator <;> rfl))
  | binary operator left token right ihleft ihright =>
    rw [lower, Lowering.limits_append_instructions, Lowering.limits_append] at hlimits
    refine ((ihleft hlimits.1).append (ihright hlimits.2)).append (pooled_of_none rfl ?_)
    rw [Lowering.ops_instructions]
    cases operator <;> decide
  | and left token right ihleft ihright =>
    rw [lower, Lowering.append_assoc, Lowering.limits_append, Lowering.limits_jump_append,
      Lowering.limits_instruction_append] at hlimits
    rw [lower, Lowering.append_assoc]
    refine (ihleft hlimits.1).append (Pooled.append (pooled_jump _ _ fun _ => rfl) ?_)
    exact (pooled_instruction _ rfl).append (ihright hlimits.2.2)
  | or left token right ihleft ihright =>
    rw [lower_or, Lowering.limits_append, limits_lowerBranches,
      Lowering.limits_instruction_append] at hlimits
    obtain ⟨hleft, -, -, hright, -⟩ := hlimits
    rw [lower_or]
    refine (ihleft hleft).append (pooled_lowerBranches (pooled_empty _) ?_)
    exact (pooled_instruction _ rfl).append (ihright hright)

/-! ## Statements

By recursion on the statement. -/

theorem VarDecl.pooled_lowerValue {names : List String} (d : VarDecl)
    (hlimits : (d.lowerValue names base).Limits base) : (d.lowerValue names base).Pooled base := by
  obtain ⟨name, initializer, semicolon⟩ := d
  cases initializer with
  | none => exact pooled_instruction _ rfl
  | some initializer => exact initializer.2.pooled hlimits

/-- The name of a global comes before its value, in the constants and in the order of use. -/
theorem VarDecl.pooled {blocks : Blocks} (d : VarDecl)
    (hlimits : (d.lower blocks base).Limits base) : (d.lower blocks base).Pooled base := by
  match blocks with
  | [] =>
    rw [VarDecl.lower, Lowering.limits_append_instruction, Lowering.limits_append,
      Lowering.limits_pool] at hlimits
    exact pooled_use _ hlimits.1 (d.pooled_lowerValue hlimits.2) rfl fun _ => ⟨_, rfl⟩
  | _ :: _ => exact d.pooled_lowerValue hlimits

theorem ForStart.pooled {blocks : Blocks} (start : ForStart)
    (hlimits : (start.lower blocks base).Limits base) : (start.lower blocks base).Pooled base := by
  cases start with
  | none semicolon => exact pooled_empty base
  | declaration keyword declared => exact declared.pooled hlimits
  | expression value semicolon =>
    rw [ForStart.lower, Lowering.limits_append_instruction] at hlimits
    exact (value.pooled hlimits).append (pooled_instruction _ rfl)

theorem pooled_dropLocals (count line : Nat) : (dropLocals count line).Pooled base := by
  refine pooled_of_none rfl ?_
  rw [dropLocals, Lowering.ops_instructions]
  intro i hi
  rw [List.eq_of_mem_replicate hi]
  rfl

mutual

theorem Stmt.pooled (t : Stmt) {blocks : Blocks} {base : Nat}
    (hlimits : (t.lower blocks base).Limits base) : (t.lower blocks base).Pooled base := by
  match t with
  | .print keyword value semicolon | .expression value semicolon =>
    rw [Stmt.lower, Lowering.limits_append_instruction] at hlimits
    rw [Stmt.lower]
    exact (value.pooled hlimits).append (pooled_instruction _ rfl)
  | .conditional keyword condition body otherwise =>
    rw [Stmt.lower, Lowering.limits_append, limits_lowerBranches,
      Lowering.limits_instruction_append, Lowering.limits_instruction_append] at hlimits
    obtain ⟨htest, hfirst, -, hsecond, -⟩ := hlimits
    rw [Stmt.lower]
    refine (condition.value.pooled htest).append (pooled_lowerBranches ?_ ?_)
    · exact (pooled_instruction _ rfl).append (body.pooled hfirst)
    · exact (pooled_instruction _ rfl).append (otherwise.pooled hsecond)
  -- a loop without an increment
  | .whileLoop keyword condition body =>
    have hroom : base ≤ Chunk.maxConstants := Nat.le_trans (Nat.le_add_right _ _) hlimits.1
    rw [Stmt.lower] at hlimits ⊢
    obtain ⟨htest, -, hinside, -, -⟩ := (limits_lowerLoop hroom).mp hlimits
    refine pooled_lowerLoop ?_ nofun (body.pooled hinside)
    rintro _ ⟨rfl⟩
    exact condition.value.pooled (htest _ rfl)
  | .forLoop keyword clauses body =>
    rw [Stmt.lower, dropLocals, Lowering.limits_append_instructions, Lowering.limits_append]
      at hlimits
    obtain ⟨hstart, hloop⟩ := hlimits
    have hroom := Nat.le_trans (Nat.le_add_right _ _) hloop.1
    obtain ⟨htest, hstep, hinside, -, -⟩ := (limits_lowerLoop hroom).mp hloop
    rw [Stmt.lower]
    refine ((clauses.start.pooled hstart).append
      (pooled_lowerLoop ?_ ?_ (body.pooled hinside))).append (pooled_dropLocals _ _)
    -- the test and then the increment, if they are there
    · intro code hcode
      obtain ⟨value, -, rfl⟩ := Option.map_eq_some_iff.mp hcode
      exact value.pooled (htest _ hcode)
    · intro code hcode
      obtain ⟨value, -, rfl⟩ := Option.map_eq_some_iff.mp hcode
      rw [hcode, limits_lowerIncrement, lowerDiscarded, Lowering.limits_append_instruction]
        at hstep
      exact (value.pooled hstep.1).append (pooled_instruction _ rfl)
  | .block left body right =>
    rw [Stmt.lower, dropLocals, Lowering.limits_append_instructions] at hlimits
    rw [Stmt.lower]
    exact (body.pooled hlimits).append (pooled_dropLocals _ _)

theorem Else.pooled (o : Else) {blocks : Blocks} {base : Nat}
    (hlimits : (o.lower blocks base).Limits base) : (o.lower blocks base).Pooled base := by
  match o with
  | .none =>
    rw [Else.lower]
    exact pooled_empty base
  | .branch keyword body =>
    rw [Else.lower] at hlimits ⊢
    exact body.pooled hlimits

/-- The code of a list of declarations uses each constant that it adds in one instruction. -/
theorem Decls.pooled (ds : Decls) {blocks : Blocks} {base : Nat}
    (hlimits : (ds.lower blocks base).Limits base) : (ds.lower blocks base).Pooled base := by
  match ds with
  | .nil =>
    rw [Decls.lower]
    exact pooled_empty base
  | .declaration keyword declared rest =>
    rw [Decls.lower, Lowering.limits_append] at hlimits
    rw [Decls.lower]
    exact (declared.pooled hlimits.1).append (rest.pooled hlimits.2)
  | .statement first rest =>
    rw [Decls.lower, Lowering.limits_append] at hlimits
    rw [Decls.lower]
    exact (first.pooled hlimits.1).append (rest.pooled hlimits.2)

end

end Tree

end StackScript
