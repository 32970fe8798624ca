import StackScript.Proofs.Machine.Simulation

/-!
# Running the code of an expression

The machine follows the evaluation of an expression from the start of its code to its end and leaves
the value on top of the stack.

* **`follows_readVariable`**, **`follows_writeVariable`**: variables, which are locals in their
  slots or globals.
* **`follows_resultAt`**, **`follows_operator`**: operators.
* **`follows_expr`**: expressions, by induction.
-/

namespace StackScript.Machine

open StackScript.Tree
open Lowering (instruction instructions pool jump)

variable {chunk : Chunk} {fuel offset line base : Nat} {held : List Value} {s : Store} {m : Machine}
  {blocks : Blocks} {name : String}

/-! ## Variables

A name with a slot is that of a local, in the store as on the stack. All other names are those of
globals. -/

/-- The slot of a local holds its value. -/
theorem Matches.getLocal (hm : Matches offset held s m) {slot : Nat}
    (hslot : slot? name s.blocks.flatten = some slot)
    (hblocks : s.blocks.flatten.length ≤ Compile.Scope.maxLocals) :
    ∃ value, s.local? name = some value ∧ getLocal slot.toUInt8 m = .ok value m := by
  have hbyte := toNat_toUInt8 (Nat.lt_of_lt_of_le (slot?_lt hslot) hblocks)
  rw [Store.flatten_blocks] at hslot
  have hlt := slot?_lt hslot
  rw [List.length_map] at hlt
  obtain ⟨value, hlookup, hvalue⟩ := lookup_of_slot? hslot
  refine ⟨value, hlookup, ?_⟩
  have hstack : m.stack[slot]? = some value := by
    rw [← Array.getElem?_toList, hm.stack, List.getElem?_append_left (by rwa [Store.length_values])]
    exact hvalue
  rw [getLocal_apply, hbyte, hstack]

/-- Writing the slot of a local gives it another value. -/
theorem Matches.setLocal (hm : Matches offset held s m) {slot : Nat} (value : Value)
    (hslot : slot? name s.blocks.flatten = some slot)
    (hblocks : s.blocks.flatten.length ≤ Compile.Scope.maxLocals) :
    ∃ m', setLocal slot.toUInt8 value m = .ok () m' ∧
      Matches offset held { s with frames := assignLocal name value s.frames } m' := by
  have hbyte := toNat_toUInt8 (Nat.lt_of_lt_of_le (slot?_lt hslot) hblocks)
  rw [Store.flatten_blocks] at hslot
  have hlt := slot?_lt hslot
  rw [List.length_map] at hlt
  have hvalues : Store.values { s with frames := assignLocal name value s.frames } =
      s.values.set slot value := by
    rw [Store.values, flatten_assignLocal, values_assign value hslot, Store.values]
  refine ⟨{ m with stack := m.stack.setIfInBounds slot value }, ?_, ?_⟩
  · rw [Machine.setLocal, hbyte]
    rfl
  refine ⟨hm.ip, ?_, ?_, hm.globals, hm.written, hm.room⟩
  · rw [hvalues, ← List.set_append_left _ _ (by rwa [Store.length_values]), ← hm.stack]
    exact Array.toList_setIfInBounds ..
  · change (m.stack.setIfInBounds slot value).size ≤ maxStack
    rw [Array.size_setIfInBounds]
    exact hm.le_maxStack

/-- The globals are those of the store. -/
theorem Matches.getGlobal (hm : Matches offset held s m) (name : String) :
    getGlobal name m = match s.globals[name]? with
      | some value => .ok value m
      | none => .error (.undefinedVariable name) m := by
  rw [← hm.globals]
  exact getGlobal_apply name m

/-- A name without a slot is not that of a local. -/
theorem local?_eq_none (hslot : slot? name s.blocks.flatten = none) : s.local? name = none := by
  rw [Store.flatten_blocks] at hslot
  exact lookup_of_slot?_eq_none hslot

/-- A local is read if there is one. -/
theorem readVariable_apply (line : Nat) (name : String) (s : Store) :
    readVariable line name s = match s.local? name, s.globals[name]? with
      | some value, _ => .ok value s
      | none, some value => .ok value s
      | none, none => failAt line (.undefinedVariable name) s := by
  unfold readVariable
  rw [bind_of_ok (get_apply s)]
  cases s.local? name with
  | some value => rfl
  | none => cases s.globals[name]? <;> rfl

/-- A local is written if there is one. A global must have been defined. -/
theorem writeVariable_apply (line : Nat) (name : String) (value : Value) (s : Store) :
    writeVariable line name value s = match s.local? name, s.globals[name]? with
      | some _, _ => .ok () { s with frames := assignLocal name value s.frames }
      | none, some _ => .ok () { s with globals := s.globals.insert name value }
      | none, none => failAt line (.undefinedVariable name) s := by
  unfold writeVariable
  rw [bind_of_ok (get_apply s)]
  cases s.local? name with
  | some value => rfl
  | none => cases s.globals[name]? <;> rfl

/-- A variable is read and its value kept. -/
theorem follows_readVariable (hs : s.blocks = blocks)
    (hblocks : blocks.flatten.length ≤ Compile.Scope.maxLocals)
    (hholds : chunk.Holds offset base (pool (nameConstants blocks.flatten name) ++
      instruction (reach blocks.flatten base name).get line))
    (hlimits : (pool (nameConstants blocks.flatten name)).Limits base)
    (hm : Matches offset held s m) :
    Follows chunk fuel m ((do keep (some maxStack) held.length line (← readVariable line name)) s)
      (Leaves blocks (offset + (reach blocks.flatten base name).get.width) held) := by
  subst hs
  rw [Lowering.limits_pool] at hlimits
  unfold reach nameConstants at *
  cases hslot : slot? name s.blocks.flatten with
  | some slot =>
    -- a local lies in its slot, so reading it cannot fail
    simp only [hslot] at hholds ⊢
    obtain ⟨value, hlocal, hget⟩ := (hm.past chunk (.getLocal slot.toUInt8)).getLocal hslot hblocks
    have hread : readVariable line name s = .ok value s := by
      rw [readVariable_apply, hlocal]
    rw [bind_of_ok hread]
    exact follows_keep hholds.code nofun (bind_of_ok hget) rfl hm
  | none =>
    simp only [hslot, List.length_singleton] at hholds hlimits ⊢
    have hlocal := local?_eq_none hslot
    have hnext := hm.past chunk (.getGlobal base.toUInt8)
    have hconstant : chunk.constants[base.toUInt8.toNat]? = some (.string name) := by
      rw [toNat_toUInt8 hlimits]
      exact hholds.constants.getElem?
    have hname := nameAt_of_string hconstant (m.past chunk (.getGlobal base.toUInt8))
    have hget := hnext.getGlobal name
    cases hglobal : s.globals[name]? with
    | some value =>
      rw [hglobal] at hget
      have hread : readVariable line name s = .ok value s := by
        rw [readVariable_apply, hlocal, hglobal]
      rw [bind_of_ok hread]
      exact follows_keep hholds.code nofun ((bind_of_ok hname).trans (bind_of_ok hget)) rfl hm
    | none =>
      rw [hglobal] at hget
      have hread : readVariable line name s = failAt line (.undefinedVariable name) s := by
        rw [readVariable_apply, hlocal, hglobal]
      rw [bind_of_error hread]
      exact follows_of_fault hholds.code hm.ip ((bind_of_ok hname).trans (bind_of_error hget))
        hm.globals hm.written

/-- The value on top of the stack is assigned to a variable and stays there. -/
theorem follows_writeVariable {value : Value} (hs : s.blocks = blocks)
    (hblocks : blocks.flatten.length ≤ Compile.Scope.maxLocals)
    (hcode : chunk.CodeAt offset [((reach blocks.flatten base name).set, line)])
    (hconstants : chunk.ConstantsAt base (nameConstants blocks.flatten name))
    (hlimits : (pool (nameConstants blocks.flatten name)).Limits base)
    (hm : Matches offset (held ++ [value]) s m) :
    Follows chunk fuel m (writeVariable line name value s) fun _ =>
      Leaves blocks (offset + (reach blocks.flatten base name).set.width) held value := by
  subst hs
  rw [Lowering.limits_pool] at hlimits
  unfold reach nameConstants at *
  cases hslot : slot? name s.blocks.flatten with
  | some slot =>
    -- a local: the slot that the code names holds the variable that the evaluation finds
    simp only [hslot] at hcode ⊢
    have hnext := hm.past chunk (.setLocal slot.toUInt8)
    obtain ⟨old, hlocal, hget⟩ := hnext.getLocal hslot hblocks
    obtain ⟨m', hset, hm'⟩ := hnext.setLocal value hslot hblocks
    rw [writeVariable_apply, hlocal]
    have hexecute : execute chunk (.setLocal slot.toUInt8) (m.past chunk (.setLocal slot.toUInt8)) =
        .ok () m' := by
      rw [execute, bind_of_ok (discard_of_ok hget), bind_of_ok hnext.peek, hset]
    exact ⟨1, m', reaches_of_execute hcode hm.ip (by simp) hexecute, names_assignLocal _ _ _, hm'⟩
  | none =>
    simp only [hslot, List.length_singleton] at hcode hconstants hlimits ⊢
    -- a global, which has to be there already
    have hlocal := local?_eq_none hslot
    have hnext := hm.past chunk (.setGlobal base.toUInt8)
    have hconstant : chunk.constants[base.toUInt8.toNat]? = some (.string name) := by
      rw [toNat_toUInt8 hlimits]
      exact hconstants.getElem?
    have hname := nameAt_of_string hconstant (m.past chunk (.setGlobal base.toUInt8))
    have hget := hnext.getGlobal name
    rw [writeVariable_apply, hlocal]
    cases hglobal : s.globals[name]? with
    | some old =>
      rw [hglobal] at hget
      have hexecute :
          execute chunk (.setGlobal base.toUInt8) (m.past chunk (.setGlobal base.toUInt8)) =
          .ok () { m.past chunk (.setGlobal base.toUInt8) with
            globals := m.globals.insert name value } := by
        rw [execute, bind_of_ok hname, bind_of_ok hnext.peek, bind_of_ok (discard_of_ok hget)]
        rfl
      refine ⟨1, _, reaches_of_execute hcode hm.ip (by simp) hexecute, rfl, ?_⟩
      exact { hnext with globals := congrArg (·.insert name value) hm.globals }
    | none =>
      rw [hglobal] at hget
      refine follows_of_fault hcode hm.ip ?_ hnext.globals hnext.written
      rw [execute, bind_of_ok hname, bind_of_ok hnext.peek, bind_of_error (discard_of_error hget)]

/-! ## Operators

The machine pops the operands and pushes the result, or fails with the same fault. -/

/-- The result of an operation, or its fault. -/
def resultOf : Except Fault Value → MachineM Value
  | .ok value => return value
  | .error fault => throw fault

/-- An instruction that has taken its operands off the stack pushes its result. -/
theorem follows_resultAt {i : Instruction} {rest : List (Instruction × Nat)}
    {result : Except Fault Value} {taken : Machine}
    (hcode : chunk.CodeAt offset ((i, line) :: rest)) (hret : i ≠ .ret) (hip : m.ip = offset)
    (hexecute : execute chunk i (m.past chunk i) = (resultOf result >>= push) taken)
    (hs : s.blocks = blocks) (htaken : Matches (offset + i.width) held s taken)
    (hlt : taken.stack.size < maxStack) :
    Follows chunk fuel m (resultAt line result s) (Leaves blocks (offset + i.width) held) := by
  cases result with
  | ok value =>
    obtain ⟨hpush, hm'⟩ := htaken.push hlt value
    exact ⟨1, _, reaches_of_execute hcode hip hret (hexecute.trans hpush), hs, hm'⟩
  | error fault => exact follows_of_fault hcode hip hexecute htaken.globals htaken.written

theorem follows_unary (operator : UnaryOperator) {rest : List (Instruction × Nat)} {value : Value}
    (hcode : chunk.CodeAt offset ((operator.instruction, line) :: rest)) (hs : s.blocks = blocks)
    (hm : Matches offset (held ++ [value]) s m) :
    Follows chunk fuel m (resultAt line (operator.apply value) s)
      (Leaves blocks (offset + operator.instruction.width) held) := by
  obtain ⟨hpop, htaken, hlt⟩ := (hm.past chunk operator.instruction).pop
  cases operator with
  | not => exact follows_resultAt hcode nofun hm.ip (bind_of_ok hpop) hs htaken hlt
  | negate =>
    refine follows_resultAt hcode nofun hm.ip ((bind_of_ok hpop).trans ?_) hs htaken hlt
    cases value <;> rfl

/-- An operation on the two values on top of the stack. -/
theorem follows_binary {i : Instruction} {rest : List (Instruction × Nat)} {a b : Value}
    {operation : Value → Value → MachineM Value} {result : Except Fault Value}
    (hcode : chunk.CodeAt offset ((i, line) :: rest)) (hret : i ≠ .ret)
    (hexecute : execute chunk i = binary operation)
    (hresult : ∀ m, operation a b m = resultOf result m) (hs : s.blocks = blocks)
    (hm : Matches offset (held ++ [a, b]) s m) :
    Follows chunk fuel m (resultAt line result s) (Leaves blocks (offset + i.width) held) := by
  have hoperands : Matches offset (held ++ [a] ++ [b]) s m := by rwa [List.append_assoc]
  obtain ⟨hright, hafter, -⟩ := (hoperands.past chunk i).pop
  obtain ⟨hleft, htaken, hlt⟩ := hafter.pop
  refine follows_resultAt hcode hret hm.ip ?_ hs htaken hlt
  rw [hexecute, binary, bind_of_ok hright, bind_of_ok hleft]
  exact bind_apply_congr (hresult _)

/-- Some comparisons are made by the opposite one and a negation. -/
theorem follows_opposite {rest : List (Instruction × Nat)} {result : Except Fault Value}
    (hresult : Follows chunk fuel m (resultAt line result s) (Leaves blocks offset held))
    (hcode : chunk.CodeAt offset ((.not, line) :: rest)) :
    Follows chunk fuel m (resultAt line (result.map fun v => .bool v.isFalsey) s)
      (Leaves blocks (offset + 1) held) := by
  cases result with
  | error fault => exact hresult
  | ok value =>
    obtain ⟨count, middle, hreaches, hs, hmiddle⟩ := hresult
    have hnot : Follows chunk fuel middle (resultAt line (UnaryOperator.not.apply value) s) _ :=
      follows_unary .not hcode hs hmiddle
    exact hnot.of_reaches hreaches

/-- Some comparisons are an opposite one and a negation. -/
theorem follows_operator (operator : BinaryOperator) {a b : Value}
    (hcode : chunk.CodeAt offset (instructions operator.instructions line).code)
    (hs : s.blocks = blocks) (hm : Matches offset (held ++ [a, b]) s m) :
    Follows chunk fuel m (resultAt line (operator.apply a b) s)
      (Leaves blocks (offset + (instructions operator.instructions line).size) held) := by
  have hnumbers : ∀ (operation : Float → Float → Value) (m : Machine),
      onNumbers operation a b m = resultOf (applyToNumbers operation a b) m := by
    intro operation m
    cases a <;> cases b <;> rfl
  -- three operators are compiled as the opposite of another one and `not`
  have hopposite : ∀ test : Float → Float → Bool,
      applyToNumbers (fun x y => .bool !(test x y)) a b =
        (applyToNumbers (fun x y => .bool (test x y)) a b).map fun v => .bool v.isFalsey := by
    intro test
    cases a <;> cases b <;> rfl
  have hequal : ∀ m, (pure (.bool (a.equals b)) : MachineM Value) m =
      resultOf (.ok (.bool (a.equals b))) m := fun _ => rfl
  cases operator with
  | equal => exact follows_binary hcode nofun rfl hequal hs hm
  | notEqual => exact follows_opposite (follows_binary hcode nofun rfl hequal hs hm) hcode.tail
  | greater => exact follows_binary hcode nofun rfl (hnumbers _) hs hm
  | greaterEqual =>
    rw [BinaryOperator.apply, hopposite]
    exact follows_opposite (follows_binary hcode nofun rfl (hnumbers _) hs hm) hcode.tail
  | less => exact follows_binary hcode nofun rfl (hnumbers _) hs hm
  | lessEqual =>
    rw [BinaryOperator.apply, hopposite]
    exact follows_opposite (follows_binary hcode nofun rfl (hnumbers _) hs hm) hcode.tail
  | add =>
    refine follows_binary hcode nofun rfl ?_ hs hm
    intro m
    cases a <;> cases b <;> rfl
  | subtract | multiply | divide => exact follows_binary hcode nofun rfl (hnumbers _) hs hm

/-! ## Branches

The operators `and` and `or` and conditionals are compiled to the same kind of branches. -/

/-- One of two pieces of code is executed, both of which find the value that decides on the stack.
The first is followed by a jump to the end of the second. -/
theorem follows_branches {α : Type} {x y : EvalM α} {left : α → List Value} {between : Nat}
    {first second : Lowering} {value : Value}
    (hholds : chunk.Holds offset base (lowerBranches line first between second))
    (hover : first.size + 3 ≤ Compile.maxDistance) (hpast : second.size ≤ Compile.maxDistance)
    (hm : Matches offset (held ++ [value]) s m)
    (hfirst : ∀ m', chunk.Holds (offset + 3) base first →
      Matches (offset + 3) (held ++ [value]) s m' →
      Follows chunk fuel m' (x s) fun a s' m'' =>
        s'.blocks = blocks ∧ Matches (offset + 3 + first.size) (left a) s' m'')
    (hsecond : ∀ m',
      chunk.Holds (offset + 3 + (first.size + 3)) (base + first.constants.length) second →
      Matches (offset + 3 + (first.size + 3)) (held ++ [value]) s m' →
      Follows chunk fuel m' (y s) fun a s' m'' => s'.blocks = blocks ∧
        Matches (offset + 3 + (first.size + 3) + second.size) (left a) s' m'') :
    Follows chunk fuel m ((if value.isFalsey then y else x) s) fun a s' m' =>
      s'.blocks = blocks ∧
        Matches (offset + (lowerBranches line first between second).size) (left a) s' m' := by
  have hsize : offset + (lowerBranches line first between second).size =
      offset + 3 + (first.size + 3) + second.size := by
    simp only [lowerBranches, Lowering.size_append, Lowering.size_jump_jumpIfFalse,
      Lowering.size_jump_jump]
    omega
  have hjump := hholds.left.right.code
  have hend := hholds.right
  simp only [Lowering.size_append, Lowering.size_jump_jumpIfFalse, Lowering.size_jump_jump,
    Lowering.constants_append, Lowering.constants_jump, List.nil_append, List.append_nil,
    Nat.add_assoc] at hjump hend
  obtain ⟨m₁, htest, hm₁⟩ := reaches_jumpIfFalse hover hholds.left.left.left.code hm
  rw [hsize]
  by_cases hv : value.isFalsey = true
  -- the jump leads to the second piece, and the end of that is the end of both
  · rw [if_pos hv] at hm₁ ⊢
    have hy := hsecond m₁ (by simpa only [Nat.add_assoc] using hend) hm₁
    exact hy.of_reaches htest
  · rw [if_neg hv] at hm₁ ⊢
    have hx := hfirst m₁ hholds.left.left.right hm₁
    refine (hx.of_reaches htest).andThen ?_
    intro a s' m' hleft
    -- behind the first piece the other jump leads to the same place
    have hm' := hleft.2
    rw [Nat.add_assoc] at hm'
    obtain ⟨m₂, hreaches, hm₂⟩ := reaches_jump hpast hjump hm'
    exact ⟨1, m₂, hreaches, hleft.1, by simpa only [Nat.add_assoc] using hm₂⟩

/-! ## Expressions

By induction on the expression. -/

/-- A constant is looked up in the pool, where it has its place. -/
theorem follows_constant {value : Value} (hs : s.blocks = blocks)
    (hholds : chunk.Holds offset base
      (pool [value] ++ instruction (.constant base.toUInt8) line))
    (hlimits : (pool [value] ++ instruction (.constant base.toUInt8) line).Limits base)
    (hm : Matches offset held s m) :
    Follows chunk fuel m (keep (some maxStack) held.length line value s)
      (Leaves blocks (offset + (pool [value] ++ instruction (.constant base.toUInt8) line).size)
        held) := by
  rw [Lowering.limits_append_instruction, Lowering.limits_pool] at hlimits
  refine follows_keep hholds.code nofun (bind_of_ok ?_) hs hm
  rw [constantAt_apply, toNat_toUInt8 hlimits, hholds.constants.getElem?]

/-- The machine follows the evaluation of an expression through its code. The values that are held
back stay below its value. -/
theorem follows_expr (fuel : Nat) (hblocks : blocks.flatten.length ≤ Compile.Scope.maxLocals)
    (e : Expr) (hs : s.blocks = blocks)
    (hholds : chunk.Holds offset base (e.lower blocks.flatten base))
    (hlimits : (e.lower blocks.flatten base).Limits base) (hm : Matches offset held s m) :
    Follows chunk fuel m (e.eval (some maxStack) held.length s)
      (Leaves blocks (offset + (e.lower blocks.flatten base).size) held) := by
  induction e generalizing base offset held s m with
  | constant value word => cases value <;> exact follows_keep hholds.code nofun rfl hs hm
  | number token value reads => exact follows_constant hs hholds hlimits hm
  | string token => exact follows_constant hs hholds hlimits hm
  | name token =>
    rw [Expr.lower, Lowering.limits_append_instruction] at hlimits
    rw [Expr.lower, Lowering.size_append, Lowering.size_pool, Lowering.size_instruction,
      Nat.zero_add]
    exact follows_readVariable hs hblocks hholds hlimits hm
  | assign target equal value ih =>
    rw [Expr.lower] at hholds
    rw [Expr.lower, Lowering.limits_append_instruction, Lowering.limits_append] at hlimits
    refine (ih hs hholds.left.right hlimits.2 hm).bind ?_
    intro v s' m' hleaves
    have hend : offset + (pool (nameConstants blocks.flatten target.val.lexeme) ++
        value.lower blocks.flatten (base + (nameConstants blocks.flatten
          target.val.lexeme).length)).size = offset + 0 + (value.lower blocks.flatten (base +
        (nameConstants blocks.flatten target.val.lexeme).length)).size := by
      simp
    -- the name in the pool takes no code
    have hset := hholds.right.code
    rw [hend] at hset
    refine (follows_writeVariable hleaves.1 hblocks hset hholds.left.left.constants hlimits.1
      hleaves.2).bind ?_
    intro _ s'' m'' hset
    refine follows_ok ?_
    rw [Expr.lower, Lowering.add_size_append, hend]
    exact hset
  | grouping left inner right ih => exact ih hs hholds hlimits hm
  | unary operator token operand ih =>
    rw [Expr.lower, Lowering.limits_append_instruction] at hlimits
    refine (ih hs hholds.left hlimits hm).bind ?_
    intro v s' m' hleaves
    rw [Expr.lower, Lowering.size_append, Lowering.size_instruction, ← Nat.add_assoc]
    exact follows_unary operator hholds.right.code hleaves.1 hleaves.2
  | binary operator left token right ihleft ihright =>
    rw [Expr.lower] at hholds
    rw [Expr.lower, Lowering.limits_append_instructions, Lowering.limits_append] at hlimits
    refine (ihleft hs hholds.left.left hlimits.1 hm).bind ?_
    intro a s₁ m₁ hleft
    have hright := ihright hleft.1 hholds.left.right hlimits.2 hleft.2
    rw [List.length_append, List.length_singleton] at hright
    refine hright.bind ?_
    intro b s₂ m₂ hright
    -- the left value is held back below the right one
    have hoperands := hright.2
    rw [List.append_assoc, List.singleton_append, Nat.add_assoc, ← Lowering.size_append]
      at hoperands
    rw [Expr.lower, Lowering.add_size_append]
    exact follows_operator operator hholds.right.code hright.1 hoperands
  | and left token right ihleft ihright =>
    rw [Expr.lower] at hholds
    rw [Expr.lower, Lowering.append_assoc, Lowering.limits_append, Lowering.limits_jump_append,
      Lowering.limits_instruction_append] at hlimits
    obtain ⟨hfirst, hdistance, hsecond⟩ := hlimits
    refine (ihleft hs hholds.left.left hfirst hm).bind ?_
    intro v s' m' hleft
    have hafter := hholds.right
    rw [Lowering.size_append, Lowering.size_jump_jumpIfFalse, Lowering.constants_append,
      Lowering.constants_jump, List.append_nil, ← Nat.add_assoc] at hafter
    obtain ⟨m₁, hjump, hm₁⟩ := reaches_jumpIfFalse hdistance hholds.left.right.code hleft.2
    rw [Expr.lower, Lowering.size_append, Lowering.size_append, Lowering.size_jump_jumpIfFalse,
      ← Nat.add_assoc, ← Nat.add_assoc]
    by_cases hv : v.isFalsey = true
    -- the left operand is the value, or it is dropped before the right one
    · rw [if_pos hv] at hm₁ ⊢
      exact (follows_ok ⟨hleft.1, hm₁⟩).of_reaches hjump
    · rw [if_neg hv] at hm₁ ⊢
      rw [Lowering.add_size_append]
      refine Follows.of_reaches hjump (follows_after_pop hafter hm₁ ?_)
      intro m₂ hcode hm₂
      exact ihright hleft.1 hcode hsecond hm₂
  | or left token right ihleft ihright =>
    rw [Expr.lower_or] at hholds
    rw [Expr.lower_or, Lowering.limits_append, limits_lowerBranches,
      Lowering.limits_instruction_append] at hlimits
    obtain ⟨hfirst, -, hover, hsecond, hpast⟩ := hlimits
    refine (ihleft hs hholds.left hfirst hm).bind ?_
    intro v s' m' hleft
    rw [Expr.lower_or, Lowering.add_size_append]
    -- the branch of a true left operand has no code of its own
    refine follows_branches hholds.right hover hpast hleft.2 ?_ ?_
    · intro m₁ _ hm₁
      exact follows_ok ⟨hleft.1, hm₁⟩
    · intro m₁ hcode hm₁
      rw [Lowering.add_size_append]
      refine follows_after_pop hcode hm₁ ?_
      intro m₂ hcode hm₂
      exact ihright hleft.1 hcode hsecond hm₂

end StackScript.Machine
