import StackScript.Proofs.Bytecode.Flow
import StackScript.Proofs.Tree.Scoping

/-!
# The code of a tree flows through

The code of an expression leaves one value on top of what it finds on the stack, and that of a
statement leaves nothing. In between the stack never holds more values than there were before plus
one for each token.

* **`Lowering.Flows`**: code that is safe between two heights wherever it is placed.
* **`flows_lowerBranches`**, **`flows_lowerLoop`**: jumps between pieces of code that flow through.
* **`Expr.flows`**, **`Stmt.flows`**, **`Decls.flows`**: the code of a tree, by induction on the
  tree.
-/

namespace StackScript

open Instruction (extent extent_append)

/-! ## Pieces of code

The height of the stack along a piece of code, relative to where it starts. Pieces fit together when
one ends at the height where the other starts. -/

namespace Lowering

/-- The instructions of a piece of code, without their lines. -/
def ops (l : Lowering) : List Instruction :=
  l.code.map (·.1)

@[simp] theorem ops_append (a b : Lowering) : (a ++ b).ops = a.ops ++ b.ops :=
  List.map_append

@[simp] theorem ops_empty : empty.ops = [] := rfl

@[simp] theorem ops_pool (values : List Value) : (pool values).ops = [] := rfl

@[simp] theorem ops_instruction (i : Instruction) (line : Nat) :
    (instruction i line).ops = [i] := rfl

@[simp] theorem ops_instructions (is : List Instruction) (line : Nat) :
    (instructions is line).ops = is := by
  simp [ops, instructions, Function.comp_def]

@[simp] theorem ops_jump (make : UInt16 → Instruction) (distance line : Nat) :
    (jump make distance line).ops = [make distance.toUInt16] := rfl

@[simp] theorem extent_ops (l : Lowering) : extent l.ops = l.size := by
  simp [extent, ops, size, codeSize, Function.comp_def]

/-- Wherever the code is placed, it flows from one height to another. -/
def Flows (limit n : Nat) (l : Lowering) (m : Nat) : Prop :=
  ∀ start, Flow limit start n l.ops m

variable {limit n m k : Nat}

theorem Flows.mono {l : Lowering} (h : l.Flows limit n m) {limit' : Nat} (hlimit : limit ≤ limit') :
    l.Flows limit' n m :=
  fun start => (h start).mono hlimit

/-- Jumps of the first piece that lead to its end lead to the start of the second. -/
theorem Flows.append {a b : Lowering} (ha : a.Flows limit n m) (hb : b.Flows limit m k) :
    (a ++ b).Flows limit n k := by
  intro start
  rw [ops_append]
  exact (ha start).append (hb _)

theorem flows_empty (h : n ≤ limit) : empty.Flows limit n n :=
  fun _ => .nil h

theorem flows_pool (values : List Value) (h : n ≤ limit) : (pool values).Flows limit n n :=
  fun _ => .nil h

/-- An instruction that is no jump and no return goes on with the next one. -/
theorem flows_instruction {i : Instruction} (line : Nat)
    (hnext : i.fallsThrough = true) (hneeds : i.needs ≤ n)
    (hslot : ∀ slot ∈ i.slot?, slot.toNat < n) (hn : n ≤ limit)
    (hafter : i.heightAfter n ≤ limit) : (instruction i line).Flows limit n (i.heightAfter n) :=
  fun _ => .instruction hnext hneeds hslot hn hafter

theorem flows_pop (line : Nat) (h : n + 1 ≤ limit) :
    (instruction .pop line).Flows limit (n + 1) n :=
  flows_instruction line rfl (by simp [Instruction.needs]) nofun h
    (by simp only [Instruction.heightAfter]; omega)

end Lowering

open Lowering (Flows flows_empty flows_pool flows_instruction flows_pop)

/-! ## Branches

A jump is safe if the height at its target is the one that it leaves. -/

namespace Tree

open Lowering (instruction instructions pool jump)

variable {limit n m : Nat}

/-- A conditional jump is safe if both the next instruction and its target are labels. -/
theorem safe_jumpIfFalse {target : Nat → Nat → Prop} {start distance : Nat}
    (hdistance : distance ≤ Compile.maxDistance) (hnext : target (start + 3) (n + 1))
    (hover : target (start + 3 + distance) (n + 1)) :
    (Instruction.jumpIfFalse distance.toUInt16).Safe target start (n + 1) where
  ne_ret := nofun
  needs_le := Nat.le_add_left 1 n
  slot_lt := nofun
  leadsBack := trivial
  leads t ht := by
    rw [Instruction.successors_jumpIfFalse, toNat_toUInt16 hdistance, List.mem_cons,
      List.mem_singleton] at ht
    rcases ht with rfl | rfl
    · exact hnext
    · exact hover

/-- A jump is taken at any height. -/
theorem safe_jump {target : Nat → Nat → Prop} {start distance : Nat}
    (hdistance : distance ≤ Compile.maxDistance) (hover : target (start + 3 + distance) n) :
    (Instruction.jump distance.toUInt16).Safe target start n where
  ne_ret := nofun
  needs_le := Nat.zero_le n
  slot_lt := nofun
  leadsBack := trivial
  leads t ht := by
    rw [Instruction.successors_jump, toNat_toUInt16 hdistance, List.mem_singleton] at ht
    exact ht ▸ hover

/-- A jump back of at least one byte, to where the height is the same. -/
theorem safe_loop {target : Nat → Nat → Prop} {start distance : Nat} (back : Nat)
    (hdistance : distance ≤ Compile.maxDistance) (hpos : 0 < distance)
    (hback : back + distance = start + 3) (htarget : target back n) :
    (Instruction.loop distance.toUInt16).Safe target start n where
  ne_ret := nofun
  needs_le := Nat.zero_le n
  slot_lt := nofun
  leadsBack := by
    simp only [Instruction.LeadsBack, toNat_toUInt16 hdistance]
    omega
  leads t ht := by
    rw [Instruction.successors_loop, toNat_toUInt16 hdistance, List.mem_singleton] at ht
    obtain rfl : t = back := by omega
    exact htarget

/-- There must be a value to pop. -/
theorem safe_pop {target : Nat → Nat → Prop} {start : Nat} (hnext : target (start + 1) n) :
    Instruction.pop.Safe target start (n + 1) where
  ne_ret := nofun
  needs_le := Nat.le_add_left 1 n
  slot_lt := nofun
  leadsBack := trivial
  leads t ht := by
    rw [show Instruction.pop.successors start = [start + 1] from rfl, List.mem_singleton] at ht
    exact ht ▸ hnext

/-- Code that is jumped over leaves the height as it is. -/
theorem flows_jumpIfFalse_append {second : Lowering} {line : Nat}
    (hdistance : second.size ≤ Compile.maxDistance) (h : second.Flows limit (n + 1) (n + 1)) :
    (jump .jumpIfFalse second.size line ++ second).Flows limit (n + 1) (n + 1) := by
  intro start
  have hsecond := h (start + 3)
  refine Flow.of_laid [.instruction (n + 1) (.jumpIfFalse second.size.toUInt16),
    .code (n + 1) second.ops (n + 1)] (by simp [Part.allOps, Part.ops])
    ⟨safe_jumpIfFalse hdistance ?_ ?_, hsecond.le_limit.1, hsecond, rfl, hsecond.le_limit.1⟩
  · simp [Part.entries, Part.ops, Part.entry]
  · simp [Part.entries, Part.ops, Part.entry]

/-- Both branches start after the same jump and meet at the same height. -/
theorem flows_lowerBranches {line between : Nat} {first second : Lowering}
    (hover : first.size + 3 ≤ Compile.maxDistance) (hpast : second.size ≤ Compile.maxDistance)
    (hfirst : first.Flows limit (n + 1) m) (hsecond : second.Flows limit (n + 1) m) :
    (lowerBranches line first between second).Flows limit (n + 1) m := by
  intro start
  have hlimit := (hfirst 0).le_limit
  refine Flow.of_laid [.instruction (n + 1) (.jumpIfFalse (first.size + 3).toUInt16),
    .code (n + 1) first.ops m, .instruction m (.jump second.size.toUInt16),
    .code (n + 1) second.ops m] (by simp [Part.allOps, Part.ops, lowerBranches])
    ⟨safe_jumpIfFalse hover ?_ ?_, hlimit.1, hfirst _, rfl, safe_jump hpast ?_, hlimit.2,
      hsecond _, rfl, hlimit.2⟩
  -- the conditional jump leads to the first piece or over the jump after it to the second
  · simp [Part.entries, Part.ops, Part.entry]
  · simp only [Part.entries, Part.ops, Part.entry, Lowering.extent_ops, Instruction.extent_cons,
      Instruction.extent_nil, Lowering.width_jumpIfFalse, Lowering.width_jump, List.mem_cons,
      Prod.mk.injEq, and_true]
    omega
  -- the first piece jumps over the second
  · simp [Part.entries, Part.ops, Part.entry]

/-! ## Loops

The height is the same at the start of every round, so it is the same wherever the loop is left. -/

/-- Both the test and the increment may be missing. In each case the parts of the loop lie in the
order test, increment, body, exit; all the jumps between them lead to the start of such a part. -/
theorem flows_lowerLoop {base enter leave line : Nat} {test increment : Option Lowering}
    {body : Lowering} (hroom : base ≤ Chunk.maxConstants)
    (hlimits : (lowerLoop test enter increment leave body line).Limits base)
    (htest : ∀ code ∈ test, code.Flows limit n (n + 1))
    (hincrement : ∀ code ∈ increment, code.Flows limit n n) (hbody : body.Flows limit n n) :
    (lowerLoop test enter increment leave body line).Flows limit n n := by
  obtain ⟨-, hstep, -, hround, hexit⟩ := (limits_lowerLoop hroom).mp hlimits
  have hn := (hbody 0).le_limit.1
  intro start
  cases test with
  | none =>
    cases increment with
    | none =>
      refine Flow.of_laid [.code n body.ops n,
        .instruction n (.loop (roundSize none none + body.size + 3).toUInt16)]
        (by simp [Part.allOps, Part.ops, lowerLoop, lowerTest, lowerIncrement, lowerExit])
        ⟨hbody _, rfl, safe_loop start hround (by omega) ?_ (List.mem_cons_self ..), hn, hn⟩
      simp only [Lowering.extent_ops, roundSize, testSize]
      omega
    | some step =>
      obtain ⟨-, hover, hback⟩ := limits_lowerIncrement.mp hstep
      refine Flow.of_laid [.instruction n (.jump (step.size + 3).toUInt16), .code n step.ops n,
        .instruction n (.loop (testSize none + 3 + step.size + 3).toUInt16), .code n body.ops n,
        .instruction n (.loop (roundSize none (some step) + body.size + 3).toUInt16)]
        (by simp [Part.allOps, Part.ops, lowerLoop, lowerTest, lowerIncrement, lowerExit])
        ⟨safe_jump hover ?_, hn, hincrement step rfl _, rfl,
          safe_loop start hback (by omega) ?_ (List.mem_cons_self ..), hn, hbody _, rfl,
          safe_loop (start + 3) hround (by omega) ?_
            (List.mem_cons_of_mem _ (List.mem_cons_self ..)), hn, hn⟩
      all_goals
        simp only [Part.entries, Part.ops, Part.entry, Lowering.extent_ops, Instruction.extent_cons,
          Instruction.extent_nil, Lowering.width_jump, Lowering.width_loop, List.mem_cons,
          Prod.mk.injEq, and_true, roundSize, testSize]
        omega
  | some condition =>
    have hcondition := (htest condition rfl 0).le_limit.2
    cases increment with
    | none =>
      have hout : 1 + (0 + body.size + 3) ≤ Compile.maxDistance := hexit rfl
      refine Flow.of_laid [.code n condition.ops (n + 1),
        .instruction (n + 1) (.jumpIfFalse (1 + (0 + body.size + 3)).toUInt16),
        .instruction (n + 1) .pop, .code n body.ops n,
        .instruction n (.loop (roundSize (some condition) none + body.size + 3).toUInt16),
        .instruction (n + 1) .pop]
        (by simp [Part.allOps, Part.ops, lowerLoop, lowerTest, lowerIncrement, lowerExit])
        ⟨htest condition rfl _, rfl, safe_jumpIfFalse hout ?_ ?_, hcondition, safe_pop ?_,
          hcondition, hbody _, rfl,
          safe_loop start hround (by omega) ?_ (List.mem_cons_self ..), hn,
          safe_pop ?_, hcondition, hn⟩
      all_goals
        simp only [Part.entries, Part.ops, Part.entry, Lowering.extent_ops, Instruction.extent_cons,
          Instruction.extent_nil, Lowering.width_jumpIfFalse, Lowering.width_pop,
          Lowering.width_loop, List.mem_cons, Prod.mk.injEq, and_true, true_or, or_true, roundSize,
          testSize] <;>
          omega
    | some step =>
      obtain ⟨-, hover, hback⟩ := limits_lowerIncrement.mp hstep
      -- a round continues seven bytes after the condition: a jump, a pop and a jump are passed over
      have hout : 1 + (3 + step.size + 3 + body.size + 3) ≤ Compile.maxDistance := by
        rw [← size_lowerIncrement enter leave (testSize (some condition))]
        exact hexit rfl
      refine Flow.of_laid [.code n condition.ops (n + 1),
        .instruction (n + 1) (.jumpIfFalse (1 + (3 + step.size + 3 + body.size + 3)).toUInt16),
        .instruction (n + 1) .pop, .instruction n (.jump (step.size + 3).toUInt16),
        .code n step.ops n,
        .instruction n (.loop (testSize (some condition) + 3 + step.size + 3).toUInt16),
        .code n body.ops n,
        .instruction n (.loop (roundSize (some condition) (some step) + body.size + 3).toUInt16),
        .instruction (n + 1) .pop]
        (by simp [Part.allOps, Part.ops, lowerLoop, lowerTest, lowerIncrement, lowerExit])
        ⟨htest condition rfl _, rfl, safe_jumpIfFalse hout ?_ ?_, hcondition, safe_pop ?_,
          hcondition, safe_jump hover ?_, hn, hincrement step rfl _, rfl,
          safe_loop start hback (by omega) ?_ (List.mem_cons_self ..), hn, hbody _, rfl,
          safe_loop (start + condition.size + 7) hround (by omega) ?_ ?_, hn, safe_pop ?_,
          hcondition, hn⟩
      all_goals
        simp only [Part.entries, Part.ops, Part.entry, Lowering.extent_ops, Instruction.extent_cons,
          Instruction.extent_nil, Lowering.width_jump, Lowering.width_jumpIfFalse,
          Lowering.width_pop, Lowering.width_loop, List.mem_cons, Prod.mk.injEq, and_true,
          true_or, or_true, roundSize, testSize] <;>
          omega

/-! ## Expressions

An expression leaves one value, and it needs no more room than it has tokens. -/

/-- A variable is read and written like any local or global. -/
theorem flows_reach {names : List String} (hnames : names.length ≤ Compile.Scope.maxLocals)
    (base : Nat) (name : String) (line : Nat) (hn : names.length ≤ n) (hlimit : n + 1 ≤ limit) :
    (instruction (reach names base name).get line).Flows limit n (n + 1) ∧
      (instruction (reach names base name).set line).Flows limit (n + 1) (n + 1) := by
  unfold reach
  split
  · rename_i slot hslot
    have hlt := slot?_lt hslot
    have hbyte : slot.toUInt8.toNat = slot := toNat_toUInt8 (Nat.lt_of_lt_of_le hlt hnames)
    constructor
    · refine flows_instruction line rfl (Nat.zero_le n) ?_ (by omega) hlimit
      rintro _ ⟨rfl⟩
      omega
    · refine flows_instruction line rfl (Nat.le_add_left 1 n) ?_ hlimit hlimit
      rintro _ ⟨rfl⟩
      omega
  · constructor
    · exact flows_instruction line rfl (Nat.zero_le n) nofun (by omega) hlimit
    · exact flows_instruction line rfl (Nat.le_add_left 1 n) nofun hlimit hlimit

/-- An operator replaces its two operands by its result, in one step or two. -/
theorem flows_operator (operator : BinaryOperator) (line : Nat) (hlimit : n + 2 ≤ limit) :
    (instructions operator.instructions line).Flows limit (n + 2) (n + 1) := by
  have hone : ∀ (i : Instruction) start, i.fallsThrough = true → i.needs = 2 → i.slot? = none →
      i.heightAfter (n + 2) = n + 1 → Flow limit start (n + 2) [i] (n + 1) := by
    intro i start hnext hneeds hslot hafter
    rw [← hafter]
    exact Flow.instruction hnext (by omega) (by simp [hslot]) hlimit (by omega)
  have hnot : ∀ start, Flow limit start (n + 1) [.not] (n + 1) := fun start =>
    Flow.instruction rfl (Nat.le_add_left 1 n) nofun (by omega) (show n + 1 ≤ limit by omega)
  intro start
  rw [Lowering.ops_instructions]
  cases operator with
  | equal => exact hone .equal start rfl rfl rfl rfl
  | notEqual => exact (hone .equal start rfl rfl rfl rfl).append (hnot _)
  | greater => exact hone .greater start rfl rfl rfl rfl
  | greaterEqual => exact (hone .less start rfl rfl rfl rfl).append (hnot _)
  | less => exact hone .less start rfl rfl rfl rfl
  | lessEqual => exact (hone .greater start rfl rfl rfl rfl).append (hnot _)
  | add => exact hone .add start rfl rfl rfl rfl
  | subtract => exact hone .subtract start rfl rfl rfl rfl
  | multiply => exact hone .multiply start rfl rfl rfl rfl
  | divide => exact hone .divide start rfl rfl rfl rfl

/-- The code of an expression leaves its value on top of the stack. -/
theorem Expr.flows {names : List String} (hnames : names.length ≤ Compile.Scope.maxLocals)
    (e : Expr) {base : Nat} (hn : names.length ≤ n) (hlimits : (e.lower names base).Limits base) :
    (e.lower names base).Flows (n + e.tokens.length) n (n + 1) := by
  induction e generalizing base n with
  | constant value word =>
    cases value <;> exact flows_instruction _ rfl (Nat.zero_le n) nofun (by omega) (Nat.le_refl _)
  | number token value reads =>
    exact (flows_pool _ (by omega)).append
      (flows_instruction _ rfl (Nat.zero_le n) nofun (by omega) (Nat.le_refl _))
  | string token =>
    exact (flows_pool _ (by omega)).append
      (flows_instruction _ rfl (Nat.zero_le n) nofun (by omega) (Nat.le_refl _))
  | name token =>
    exact (flows_pool _ (by omega)).append
      (flows_reach hnames base token.val.lexeme _ hn (Nat.le_refl _)).1
  | assign target equal value ih =>
    rw [lower, Lowering.limits_append_instruction, Lowering.limits_append] at hlimits
    have hvalue := ih hn hlimits.2
    have hlength : (assign target equal value).tokens.length = value.tokens.length + 2 := rfl
    refine ((flows_pool _ (by omega)).append (hvalue.mono (by omega))).append ?_
    exact (flows_reach hnames base target.val.lexeme _ hn (by omega)).2
  | grouping left inner right ih =>
    have hlength : (grouping left inner right).tokens.length = inner.tokens.length + 2 := by
      simp [tokens]
    exact (ih hn hlimits).mono (by omega)
  | unary operator token operand ih =>
    rw [lower, Lowering.limits_append_instruction] at hlimits
    have hoperand := ih hn hlimits
    have hle := (hoperand 0).le_limit.2
    have hlength : (unary operator token operand).tokens.length = operand.tokens.length + 1 := rfl
    refine (hoperand.mono (by omega)).append ?_
    cases operator <;>
      exact flows_instruction _ rfl (Nat.le_add_left 1 n) (by rintro _ ⟨⟩) (by omega)
        (show n + 1 ≤ n + _ by omega)
  | binary operator left token right ihleft ihright =>
    rw [lower, Lowering.limits_append_instructions, Lowering.limits_append] at hlimits
    have hleft := ihleft hn hlimits.1
    -- the right operand runs above the value of the left one, which takes a token of its own
    have hright := ihright (n := n + 1) (by omega) hlimits.2
    have hle := (hright 0).le_limit.2
    have hlength : (binary operator left token right).tokens.length =
        left.tokens.length + (right.tokens.length + 1) := by simp [tokens]
    refine ((hleft.mono (by omega)).append (hright.mono (by omega))).append ?_
    exact flows_operator operator _ (by omega)
  | and left token right ihleft ihright =>
    rw [lower, Lowering.append_assoc, Lowering.limits_append, Lowering.limits_jump_append,
      Lowering.limits_instruction_append] at hlimits
    obtain ⟨hfirst, hdistance, hsecond⟩ := hlimits
    have hleft := ihleft hn hfirst
    have hright := ihright hn hsecond
    have hle := (hright 0).le_limit.2
    have hlength : (and left token right).tokens.length =
        left.tokens.length + (right.tokens.length + 1) := by simp [tokens]
    rw [lower, Lowering.append_assoc]
    -- where the jump lands the left value is on top, and so is the right one that replaces it
    refine (hleft.mono (by omega)).append (flows_jumpIfFalse_append hdistance ?_)
    exact (flows_pop _ (by omega)).append (hright.mono (by omega))
  | or left token right ihleft ihright =>
    rw [Expr.lower_or, Lowering.limits_append, limits_lowerBranches,
      Lowering.limits_instruction_append] at hlimits
    obtain ⟨hfirst, -, hover, hsecond, hpast⟩ := hlimits
    have hleft := ihleft hn hfirst
    have hright := ihright hn hsecond
    have hle := (hright 0).le_limit.2
    have hlength : (or left token right).tokens.length =
        left.tokens.length + (right.tokens.length + 1) := by simp [tokens]
    rw [Expr.lower_or]
    -- the first branch is empty: it keeps the left value
    refine (hleft.mono (by omega)).append
      (flows_lowerBranches hover hpast (flows_empty (by omega)) ?_)
    exact (flows_pop _ (by omega)).append (hright.mono (by omega))

/-! ## Statements

A statement leaves what it found. Only declarations in a block leave a value, that of the local. -/

/-- A declaration in a block adds one local. -/
theorem length_flatten_declare {block : List String} {outer : Blocks} (name : String) :
    (Blocks.declare name (block :: outer)).flatten.length =
      (block :: outer).flatten.length + 1 := by
  simp [Blocks.declare]

/-- One value is popped for each local. -/
theorem flows_dropLocals (count line : Nat) (h : n + count ≤ limit) :
    (dropLocals count line).Flows limit (n + count) n := by
  intro start
  rw [dropLocals, Lowering.ops_instructions]
  induction count generalizing start with
  | zero => exact .nil h
  | succ count ih =>
    have hpop : Flow limit start (n + count + 1) [.pop] (n + count) :=
      flows_pop line (n := n + count) h start
    exact hpop.append (ih (by omega) _)

/-- Where a block ends its locals are dropped, and only those of the blocks around it are left. -/
theorem flows_leave {code : Lowering} {blocks inner : Blocks} (line : Nat)
    (hinner : inner = innermost inner :: blocks)
    (hcode : code.Flows limit n inner.flatten.length) :
    (code ++ dropLocals (innermost inner).length line).Flows limit n blocks.flatten.length := by
  have hlength : inner.flatten.length =
      blocks.flatten.length + (innermost inner).length := by
    rw [congrArg List.flatten hinner, List.flatten_cons, List.length_append, Nat.add_comm]
  rw [hlength] at hcode
  exact hcode.append (flows_dropLocals _ _ (hcode 0).le_limit.2)

/-- A value and the instruction that prints or drops it. -/
theorem Expr.flows_consumed {names : List String}
    (hnames : names.length ≤ Compile.Scope.maxLocals) (value : Expr) {base line : Nat}
    (hn : names.length ≤ n) {i : Instruction} (hi : i = .print ∨ i = .pop)
    (hlimits : (value.lower names base ++ instruction i line).Limits base) :
    (value.lower names base ++ instruction i line).Flows (n + value.tokens.length) n n := by
  rw [Lowering.limits_append_instruction] at hlimits
  have hvalue := value.flows hnames hn hlimits
  have hle := (hvalue 0).le_limit.2
  refine hvalue.append ?_
  rcases hi with rfl | rfl
  · exact flows_instruction _ rfl (Nat.le_add_left 1 _) nofun hle (Nat.le_add_right _ _)
  · exact flows_pop _ hle

/-- The value of a declared variable is one value. -/
theorem VarDecl.flows_lowerValue {names : List String}
    (hnames : names.length ≤ Compile.Scope.maxLocals) (d : VarDecl) {base : Nat}
    (hn : names.length ≤ n) (hlimits : (d.lowerValue names base).Limits base) :
    (d.lowerValue names base).Flows (n + d.tokens.length) n (n + 1) := by
  obtain ⟨name, initializer, semicolon⟩ := d
  cases initializer with
  | none => exact flows_instruction _ rfl (Nat.zero_le n) nofun (by omega) (Nat.le_succ _)
  | some initializer =>
    refine (initializer.2.flows hnames hn hlimits).mono ?_
    simp only [VarDecl.tokens, List.length_cons, List.length_append]
    omega

/-- A declared local adds a value to the stack, a global does not. -/
theorem VarDecl.flows {blocks : Blocks} (hblocks : blocks.flatten.length ≤ Compile.Scope.maxLocals)
    (d : VarDecl) {base : Nat} (hlimits : (d.lower blocks base).Limits base) :
    (d.lower blocks base).Flows (blocks.flatten.length + d.tokens.length) blocks.flatten.length
      (blocks.declare d.name.val.lexeme).flatten.length := by
  match blocks with
  | [] =>
    rw [VarDecl.lower, Lowering.limits_append_instruction, Lowering.limits_append] at hlimits
    have hvalue := d.flows_lowerValue hblocks (Nat.le_refl 0) hlimits.2
    have hle := (hvalue 0).le_limit.2
    refine ((flows_pool _ (Nat.zero_le _)).append hvalue).append ?_
    exact flows_instruction _ rfl (Nat.le_refl 1) nofun hle (Nat.zero_le _)
  | block :: outer =>
    rw [length_flatten_declare]
    exact d.flows_lowerValue hblocks (Nat.le_refl _) hlimits

/-- The start of a loop may declare a local. -/
theorem ForStart.flows {blocks : Blocks}
    (hblocks : blocks.flatten.length ≤ Compile.Scope.maxLocals) (start : ForStart) {base : Nat}
    (hlimits : (start.lower blocks base).Limits base) :
    (start.lower blocks base).Flows (blocks.flatten.length + start.tokens.length)
      blocks.flatten.length (start.blocks blocks).flatten.length := by
  cases start with
  | none semicolon => exact flows_empty (by omega)
  | declaration keyword declared =>
    exact (declared.flows hblocks hlimits).mono (by simp [ForStart.tokens])
  | expression value semicolon =>
    exact (value.flows_consumed hblocks (Nat.le_refl _) (.inr rfl) hlimits).mono
      (by simp [ForStart.tokens])

/-- With a local for which there is a slot there are not more locals than slots. -/
theorem length_declare_le {blocks : Blocks} {d : VarDecl}
    (hblocks : blocks.flatten.length ≤ Compile.Scope.maxLocals)
    (hscoped : Scoped (d.locals blocks)) :
    (blocks.declare d.name.val.lexeme).flatten.length ≤ Compile.Scope.maxLocals := by
  match blocks with
  | [] => exact hblocks
  | block :: outer =>
    rw [length_flatten_declare]
    exact (scoped_singleton.mp hscoped).hasSlot

/-- The variable of a loop is one of the locals that have slots. -/
theorem ForStart.length_blocks_le {blocks : Blocks} {start : ForStart}
    (hblocks : blocks.flatten.length ≤ Compile.Scope.maxLocals)
    (hscoped : Scoped (start.locals blocks)) :
    (start.blocks blocks).flatten.length ≤ Compile.Scope.maxLocals := by
  cases start with
  | declaration keyword declared => exact length_declare_le hblocks hscoped
  | _ => exact hblocks

mutual

/-- The code of a statement leaves the stack as high as it found it. -/
theorem Stmt.flows (t : Stmt) {blocks : Blocks} {base : Nat}
    (hblocks : blocks.flatten.length ≤ Compile.Scope.maxLocals)
    (hscoped : Scoped (t.locals blocks)) (hlimits : (t.lower blocks base).Limits base) :
    (t.lower blocks base).Flows (blocks.flatten.length + t.tokens.length) blocks.flatten.length
      blocks.flatten.length := by
  match t with
  | .print keyword value semicolon =>
    rw [Stmt.lower] at hlimits ⊢
    have hlength : (Stmt.print keyword value semicolon).tokens.length =
        value.tokens.length + 2 := by simp [Stmt.tokens]
    exact (value.flows_consumed hblocks (Nat.le_refl _) (.inl rfl) hlimits).mono (by omega)
  | .expression value semicolon =>
    rw [Stmt.lower] at hlimits ⊢
    have hlength : (Stmt.expression value semicolon).tokens.length =
        value.tokens.length + 1 := by simp [Stmt.tokens]
    exact (value.flows_consumed hblocks (Nat.le_refl _) (.inr rfl) hlimits).mono (by omega)
  | .conditional keyword condition body otherwise =>
    rw [Stmt.locals, scoped_append] at hscoped
    rw [Stmt.lower, Lowering.limits_append, limits_lowerBranches,
      Lowering.limits_instruction_append, Lowering.limits_instruction_append] at hlimits
    obtain ⟨htest, hfirst, hover, hsecond, hpast⟩ := hlimits
    have hcondition := condition.value.flows hblocks (Nat.le_refl _) htest
    have hbody := body.flows hblocks hscoped.1 hfirst
    have hotherwise := otherwise.flows hblocks hscoped.2 hsecond
    have hle := (hcondition 0).le_limit.2
    have hlength : (Stmt.conditional keyword condition body otherwise).tokens.length =
        condition.value.tokens.length + body.tokens.length + otherwise.tokens.length + 3 := by
      simp only [Stmt.tokens, Condition.tokens, List.length_cons, List.length_append,
        List.length_nil]
      omega
    rw [Stmt.lower]
    refine (hcondition.mono (by omega)).append (flows_lowerBranches hover hpast ?_ ?_)
    · exact (flows_pop _ (by omega)).append (hbody.mono (by omega))
    · exact (flows_pop _ (by omega)).append (hotherwise.mono (by omega))
  | .whileLoop keyword condition body =>
    have hroom : base ≤ Chunk.maxConstants := Nat.le_trans (Nat.le_add_right _ _) hlimits.1
    rw [Stmt.lower] at hlimits ⊢
    obtain ⟨htest, -, hinside, -, -⟩ := (limits_lowerLoop hroom).mp hlimits
    have hcondition := condition.value.flows hblocks (Nat.le_refl _) (htest _ rfl)
    have hbody := body.flows hblocks hscoped hinside
    have hlength : (Stmt.whileLoop keyword condition body).tokens.length =
        condition.value.tokens.length + body.tokens.length + 3 := by
      simp only [Stmt.tokens, Condition.tokens, List.length_cons, List.length_append,
        List.length_nil]
      omega
    refine flows_lowerLoop hroom hlimits ?_ nofun (hbody.mono (by omega))
    rintro _ ⟨rfl⟩
    exact hcondition.mono (by omega)
  | .forLoop keyword clauses body =>
    rw [Stmt.locals, scoped_append] at hscoped
    rw [Stmt.lower, dropLocals, Lowering.limits_append_instructions, Lowering.limits_append]
      at hlimits
    obtain ⟨hstart, hloop⟩ := hlimits
    have hroom := Nat.le_trans (Nat.le_add_right _ _) hloop.1
    obtain ⟨htest, hstep, hinside, -, -⟩ := (limits_lowerLoop hroom).mp hloop
    have hopened : ([] :: blocks).flatten.length ≤ Compile.Scope.maxLocals := hblocks
    have hlocals := ForStart.length_blocks_le hopened hscoped.1
    have hbefore : (clauses.start.lower ([] :: blocks) base).Flows
        (blocks.flatten.length + clauses.start.tokens.length) blocks.flatten.length _ :=
      clauses.start.flows hopened hstart
    have hbody := body.flows hlocals hscoped.2 hinside
    -- the other clauses and the body start above the local of the first clause
    have hle := (hbefore 0).le_limit.2
    have hlength : (Stmt.forLoop keyword clauses body).tokens.length =
        clauses.start.tokens.length + (optionalTokens clauses.condition).length +
          (optionalTokens clauses.increment).length + body.tokens.length + 4 := by
      simp only [Stmt.tokens, ForClauses.tokens, List.length_cons, List.length_append,
        List.length_nil]
      omega
    rw [Stmt.lower]
    refine flows_leave _ (clauses.start.blocks_cons [] blocks) ((hbefore.mono (by omega)).append
      (flows_lowerLoop hroom hloop ?_ ?_ (hbody.mono (by omega))))
    · intro code hcode
      obtain ⟨value, hvalue, rfl⟩ := Option.map_eq_some_iff.mp hcode
      rw [hvalue, optionalTokens] at hlength
      exact (value.flows hlocals (Nat.le_refl _) (htest _ hcode)).mono (by omega)
    · intro code hcode
      obtain ⟨value, hvalue, rfl⟩ := Option.map_eq_some_iff.mp hcode
      rw [hcode, limits_lowerIncrement] at hstep
      rw [hvalue, optionalTokens] at hlength
      exact (value.flows_consumed hlocals (Nat.le_refl _) (.inr rfl) hstep.1).mono (by omega)
  | .block left body right =>
    rw [Stmt.lower, dropLocals, Lowering.limits_append_instructions] at hlimits
    have hopened : ([] :: blocks).flatten.length ≤ Compile.Scope.maxLocals := hblocks
    have hbody : (body.lower ([] :: blocks) base).Flows
        (blocks.flatten.length + body.tokens.length) blocks.flatten.length _ :=
      body.flows hopened hscoped hlimits
    have hlength : (Stmt.block left body right).tokens.length = body.tokens.length + 2 := by
      simp [Stmt.tokens]
    rw [Stmt.lower]
    exact flows_leave _ (body.blocks_cons [] blocks) (hbody.mono (by omega))

/-- A second branch that is missing is no code at all. -/
theorem Else.flows (o : Else) {blocks : Blocks} {base : Nat}
    (hblocks : blocks.flatten.length ≤ Compile.Scope.maxLocals)
    (hscoped : Scoped (o.locals blocks)) (hlimits : (o.lower blocks base).Limits base) :
    (o.lower blocks base).Flows (blocks.flatten.length + o.tokens.length) blocks.flatten.length
      blocks.flatten.length := by
  match o with
  | .none =>
    rw [Else.lower]
    exact flows_empty (by omega)
  | .branch keyword body =>
    rw [Else.lower] at hlimits ⊢
    exact (body.flows hblocks hscoped hlimits).mono (by simp [Else.tokens])

/-- The code of a list of declarations leaves the locals that it declares on the stack. -/
theorem Decls.flows (ds : Decls) {blocks : Blocks} {base : Nat}
    (hblocks : blocks.flatten.length ≤ Compile.Scope.maxLocals)
    (hscoped : Scoped (ds.locals blocks)) (hlimits : (ds.lower blocks base).Limits base) :
    (ds.lower blocks base).Flows (blocks.flatten.length + ds.tokens.length) blocks.flatten.length
      (ds.blocks blocks).flatten.length := by
  match ds with
  | .nil =>
    rw [Decls.lower]
    exact flows_empty (by omega)
  | .declaration keyword declared rest =>
    rw [Decls.locals, scoped_append] at hscoped
    rw [Decls.lower, Lowering.limits_append] at hlimits
    -- a local stays on the stack for the declarations behind it
    have hfirst := declared.flows hblocks hlimits.1
    have hrest := rest.flows (length_declare_le hblocks hscoped.1) hscoped.2 hlimits.2
    have hlength : (Decls.declaration keyword declared rest).tokens.length =
        declared.tokens.length + rest.tokens.length + 1 := by simp [Decls.tokens]
    have hle := (hfirst 0).le_limit.2
    rw [Decls.lower]
    exact (hfirst.mono (by omega)).append (hrest.mono (by omega))
  | .statement first rest =>
    rw [Decls.locals, scoped_append] at hscoped
    rw [Decls.lower, Lowering.limits_append] at hlimits
    have hfirst := first.flows hblocks hscoped.1 hlimits.1
    have hrest := rest.flows hblocks hscoped.2 hlimits.2
    -- a statement leaves nothing, so both parts start at the same height
    have hlength : (Decls.statement first rest).tokens.length =
        first.tokens.length + rest.tokens.length := by simp [Decls.tokens]
    rw [Decls.lower]
    exact (hfirst.mono (by omega)).append (hrest.mono (by omega))

end

end Tree

end StackScript
