import StackScript.Proofs.Machine.Listing
import StackScript.Proofs.Machine.StackHeight

/-!
# Scripts without loops come to an end

Nothing in the machine bounds a run. But only loops are compiled to jumps back, all other
instructions lead forward, and the machine never reads an instruction from the middle of another
one. So a script without loops executes each of its instructions at most once.

* **`Lowering.GoesForward`**: the code has no jump back; `Decls.goesForward` says so of trees.
* **`ip_lt_of_step`**: an instruction that does not jump back leads forward, in any code.
* **`executed_of_forward`**: a run that moves forward among finitely many places.
* **`run_halts`**: runs of scripts without loops.
-/

namespace StackScript

/-! ## Code without loops

Only the keywords of loops lead to jumps back. -/

/-- Whether the instruction is a jump back. -/
def Instruction.isLoop : Instruction → Bool
  | loop _ => .true
  | _ => .false

/-- The code has no jump back. -/
def Lowering.GoesForward (l : Lowering) : Prop :=
  ∀ i ∈ l.ops, i.isLoop = false

/-- No loop starts with any of the tokens. -/
def LoopFree (tokens : List Token) : Prop :=
  ∀ token ∈ tokens, token.kind ≠ .forKw ∧ token.kind ≠ .whileKw

instance (tokens : List Token) : Decidable (LoopFree tokens) :=
  inferInstanceAs (Decidable (∀ token ∈ tokens, _))

@[simp] theorem loopFree_cons {token : Token} {tokens : List Token} :
    LoopFree (token :: tokens) ↔
      (token.kind ≠ .forKw ∧ token.kind ≠ .whileKw) ∧ LoopFree tokens :=
  List.forall_mem_cons

@[simp] theorem loopFree_append {a b : List Token} :
    LoopFree (a ++ b) ↔ LoopFree a ∧ LoopFree b :=
  List.forall_mem_append

namespace Lowering

@[simp] theorem goesForward_append {a b : Lowering} :
    (a ++ b).GoesForward ↔ a.GoesForward ∧ b.GoesForward := by
  rw [GoesForward, ops_append]
  exact List.forall_mem_append

@[simp] theorem goesForward_empty : empty.GoesForward := by
  simp [GoesForward]

@[simp] theorem goesForward_pool (values : List Value) : (pool values).GoesForward := by
  simp [GoesForward]

@[simp] theorem goesForward_instruction {i : Instruction} {line : Nat} :
    (instruction i line).GoesForward ↔ i.isLoop = false := by
  simp [GoesForward]

@[simp] theorem goesForward_instructions {is : List Instruction} {line : Nat} :
    (instructions is line).GoesForward ↔ ∀ i ∈ is, i.isLoop = false := by
  simp [GoesForward]

@[simp] theorem goesForward_jump {make : UInt16 → Instruction} {distance line : Nat} :
    (jump make distance line).GoesForward ↔ (make distance.toUInt16).isLoop = false := by
  simp [GoesForward]

end Lowering

namespace Tree

open Lowering (instruction)

/-- The jumps of a conditional go forward. -/
theorem goesForward_lowerBranches {line between : Nat} {first second : Lowering}
    (hfirst : first.GoesForward) (hsecond : second.GoesForward) :
    (lowerBranches line first between second).GoesForward := by
  simp [lowerBranches, hfirst, hsecond, Instruction.isLoop]

theorem goesForward_dropLocals (count line : Nat) : (dropLocals count line).GoesForward := by
  rw [dropLocals, Lowering.goesForward_instructions]
  intro i hi
  rw [List.eq_of_mem_replicate hi]
  rfl

/-- The instructions that read and write variables are no jumps. -/
theorem isLoop_reach (names : List String) (base : Nat) (name : String) :
    (reach names base name).get.isLoop = false ∧ (reach names base name).set.isLoop = false := by
  unfold reach
  cases slot? name names <;> exact ⟨rfl, rfl⟩

/-- By induction on the expression. The operators `and` and `or` jump forward. -/
theorem Expr.goesForward (e : Expr) (names : List String) (base : Nat) :
    (e.lower names base).GoesForward := by
  induction e generalizing base with
  | constant value word => cases value <;> simp [lower, Constant.instruction, Instruction.isLoop]
  | number token value reads => simp [lower, Instruction.isLoop]
  | string token => simp [lower, Instruction.isLoop]
  | name token => simp [lower, (isLoop_reach names base token.val.lexeme).1]
  | assign target equal value ih =>
    simp [lower, ih, (isLoop_reach names base target.val.lexeme).2]
  | grouping left inner right ih => exact ih base
  | unary operator token operand ih =>
    have hoperator : operator.instruction.isLoop = false := by cases operator <;> rfl
    simp [lower, ih, hoperator]
  | binary operator left token right ihleft ihright =>
    have hoperator : ∀ i ∈ operator.instructions, i.isLoop = false := by
      cases operator <;> decide
    simp only [lower, Lowering.goesForward_append, Lowering.goesForward_instructions]
    exact ⟨⟨ihleft base, ihright _⟩, hoperator⟩
  | and left token right ihleft ihright => simp [lower, ihleft, ihright, Instruction.isLoop]
  | or left token right ihleft ihright => simp [lower, ihleft, ihright, Instruction.isLoop]

/-- A declaration is no more than its value and one instruction. -/
theorem VarDecl.goesForward (d : VarDecl) (blocks : Blocks) (base : Nat) :
    (d.lower blocks base).GoesForward := by
  have hvalue : ∀ names base, (d.lowerValue names base).GoesForward := by
    intro names base
    unfold VarDecl.lowerValue
    cases d.initializer with
    | none => simp [Instruction.isLoop]
    | some initializer => exact initializer.2.goesForward names base
  cases blocks with
  | nil => simp [VarDecl.lower, hvalue, Instruction.isLoop]
  | cons block outer => exact hvalue _ _

mutual

/-- Only the keyword of a loop is compiled to a jump back. -/
theorem Stmt.goesForward (t : Stmt) (h : LoopFree t.tokens) (blocks : Blocks) (base : Nat) :
    (t.lower blocks base).GoesForward := by
  match t with
  | .print keyword value semicolon | .expression value semicolon =>
    rw [Stmt.lower, Lowering.goesForward_append, Lowering.goesForward_instruction]
    exact ⟨value.goesForward _ _, rfl⟩
  | .conditional keyword condition body otherwise =>
    rw [Stmt.tokens, loopFree_cons, loopFree_append, loopFree_append] at h
    obtain ⟨-, -, hbody, hotherwise⟩ := h
    rw [Stmt.lower, Lowering.goesForward_append]
    refine ⟨condition.value.goesForward _ _, goesForward_lowerBranches ?_ ?_⟩
    · rw [Lowering.goesForward_append, Lowering.goesForward_instruction]
      exact ⟨rfl, body.goesForward hbody _ _⟩
    · rw [Lowering.goesForward_append, Lowering.goesForward_instruction]
      exact ⟨rfl, otherwise.goesForward hotherwise _ _⟩
  -- the keyword is among the tokens
  | .whileLoop keyword condition body =>
    rw [Stmt.tokens, loopFree_cons] at h
    exact absurd keyword.property h.1.2
  | .forLoop keyword clauses body =>
    rw [Stmt.tokens, loopFree_cons] at h
    exact absurd keyword.property h.1.1
  | .block left body right =>
    rw [Stmt.tokens, loopFree_cons, loopFree_append] at h
    rw [Stmt.lower, Lowering.goesForward_append]
    exact ⟨body.goesForward h.2.1 _ _, goesForward_dropLocals _ _⟩

theorem Else.goesForward (o : Else) (h : LoopFree o.tokens) (blocks : Blocks) (base : Nat) :
    (o.lower blocks base).GoesForward := by
  match o with
  | .none =>
    rw [Else.lower]
    exact Lowering.goesForward_empty
  | .branch keyword body =>
    rw [Else.tokens, loopFree_cons] at h
    rw [Else.lower]
    exact body.goesForward h.2 _ _

theorem Decls.goesForward (ds : Decls) (h : LoopFree ds.tokens) (blocks : Blocks) (base : Nat) :
    (ds.lower blocks base).GoesForward := by
  match ds with
  | .nil =>
    rw [Decls.lower]
    exact Lowering.goesForward_empty
  | .declaration keyword declared rest =>
    rw [Decls.tokens, loopFree_cons, loopFree_append] at h
    rw [Decls.lower, Lowering.goesForward_append]
    exact ⟨declared.goesForward _ _, rest.goesForward h.2.2 _ _⟩
  | .statement first rest =>
    rw [Decls.tokens, loopFree_append] at h
    rw [Decls.lower, Lowering.goesForward_append]
    exact ⟨first.goesForward h.1 _ _, rest.goesForward h.2 _ _⟩

end

end Tree

namespace Machine

open Instruction (located offsets)

/-! ## Moving forward

Every instruction other than a jump back leads to a higher offset, so none is executed twice. -/

variable {c : Chunk} {m next : Machine} {i : Instruction} {p : Progress}

/-- An instruction that does not jump back leaves the machine behind it or further on. -/
theorem ip_le_of_execute (hloop : i.isLoop = false) (hexecute : execute c i m = .ok () next) :
    m.ip ≤ next.ip := by
  cases hjumps : i.jumps m with
  | false => exact (ip_of_execute hexecute hjumps).ge
  | true =>
    cases i with
    | jump distance =>
      cases hexecute
      exact Nat.le_add_right _ _
    | jumpIfFalse distance =>
      rw [execute_jumpIfFalse] at hexecute
      cases hback : m.stack.back? with
      | none =>
        rw [hback] at hexecute
        cases hexecute
      | some value =>
        rw [hback] at hexecute
        cases hexecute
        show m.ip ≤ if value.isFalsey then m.ip + distance.toNat else m.ip
        split <;> omega
    | loop distance => cases hloop
    | _ => cases hjumps

/-- A step goes past the instruction at least. -/
theorem ip_lt_of_step (hdecode : Instruction.decode c.code m.ip = .ok i)
    (hloop : i.isLoop = false) (hstep : step c m = .ok p next) : m.ip < next.ip := by
  rw [step_of_decode hdecode] at hstep
  obtain ⟨_, last, hexecute, hpure⟩ := bind_eq_ok.mp hstep
  obtain ⟨-, rfl⟩ := EStateM.Result.ok.inj hpure
  have hwidth := i.width_pos
  have hle : m.ip + i.width ≤ last.ip := ip_le_of_execute hloop hexecute
  omega

/-- The offsets of the instructions that are executed, in this order, in at most the given number of
steps. -/
def executed (c : Chunk) : (steps : Nat) → Machine → List Nat
  | 0, _ => []
  | steps + 1, m =>
    m.ip :: match step c m with
      | .ok .running next => executed c steps next
      | _ => []

/-- A machine that moves from place to place, each time forward, executes some of the instructions
there in their order, and halts at the last place if not before. -/
theorem executed_of_forward {P : Machine → Prop} {places : List Nat}
    (hsorted : places.Pairwise (· < ·)) (hplace : ∀ m, P m → m.ip ∈ places)
    (hforward : ∀ m next, P m → step c m = .ok .running next → P next ∧ m.ip < next.ip)
    {before after : List Nat} (hm : P m) (hat : places = before ++ m.ip :: after) (steps : Nat) :
    (executed c steps m).Sublist (m.ip :: after) ∧
      (after.length < steps → (runFrom c steps m).1 ≠ .unfinished) := by
  induction steps generalizing m before after with
  | zero => exact ⟨List.nil_sublist _, by omega⟩
  | succ steps ih =>
    rw [runFrom, executed]
    cases hstep : step c m with
    | error fault last => exact ⟨by simp, by rintro - ⟨⟩⟩
    | ok p next =>
      cases p with
      | halted => exact ⟨by simp, by rintro - ⟨⟩⟩
      | running =>
        obtain ⟨hnext, hlt⟩ := hforward m next hm hstep
        -- the next place is further on, hence among those after this one
        have hafter : next.ip ∈ after := by
          have hmem := hplace next hnext
          rw [hat, List.mem_append, List.mem_cons] at hmem
          rw [hat, List.pairwise_append] at hsorted
          rcases hmem with hmem | heq | hmem
          · have := hsorted.2.2 next.ip hmem m.ip (List.mem_cons_self ..)
            omega
          · omega
          · exact hmem
        obtain ⟨skipped, rest, rfl⟩ := List.append_of_mem hafter
        have hrest : places = (before ++ m.ip :: skipped) ++ next.ip :: rest := by
          rw [hat]
          simp
        obtain ⟨hsublist, hhalts⟩ := ih hnext hrest
        refine ⟨.cons_cons _ (hsublist.trans (List.sublist_append_right skipped _)), ?_⟩
        intro hsteps
        apply hhalts
        rw [List.length_append, List.length_cons] at hsteps
        omega

/-! ## Scripts

The offsets of the instructions that are executed grow, and each belongs to an instruction of the
script. -/

open StackScript.Tree Compile

/-- A standing machine moves forward if the code does. -/
theorem standing_forward {script : Decls} {line : Nat} {height : Nat → Nat}
    (hfits : ScriptFits line script)
    (hheights : Heights (fun _ _ => False) script.tokens.length 0 (script.lower [] 0).ops height)
    (hfree : LoopFree script.tokens) (hm : Standing height (script.program line).ops m)
    (hstep : step (Chunk.empty.extend (script.program line)) m = .ok .running next) :
    Standing height (script.program line).ops next ∧ m.ip < next.ip := by
  obtain ⟨i, hi, hdecode⟩ := hm.exists_decode
  have hloop : i.isLoop = false := by
    have hmem := Instruction.mem_of_located hi
    rw [ops_program, List.mem_append, List.mem_singleton] at hmem
    rcases hmem with hmem | rfl
    · exact script.goesForward hfree [] 0 i hmem
    · rfl
  have hstanding := standing_step hfits hheights hm
  rw [hstep] at hstanding
  exact ⟨hstanding, ip_lt_of_step hdecode hloop hstep⟩

/-- **Scripts without loops come to an end.** In a compiled script without `for` and `while` the
instructions are executed in the order of their offsets, each of them at most once, whatever
variables there are and wherever the output goes. So as many steps as there are instructions are
enough for the script to finish or to fail. -/
theorem run_halts {tokens : List Token} {chunk : Chunk}
    (h : (compile tokens).result = .ok chunk) (hfree : LoopFree tokens) :
    ∃ ops, chunk.instructions = .ok ops ∧ (offsets 0 ops).Pairwise (· < ·) ∧
      ∀ (m : Machine) (steps : Nat),
        (executed chunk steps m.reset).Sublist (offsets 0 ops) ∧
        (ops.length ≤ steps → (m.run chunk steps).1 ≠ .unfinished) := by
  obtain ⟨script, rest, -, rfl, -, hfits, rfl⟩ := result_compile_eq_ok.mp h
  rw [loopFree_append] at hfree
  have hwell := wellFormed_of_fits hfits
  obtain ⟨height, hheights, hstart, -⟩ := flow_of_fits hfits
  have hsorted := Instruction.pairwise_offsets 0 (script.program (endLine script rest)).ops
  refine ⟨_, hwell.instructions, hsorted, fun m steps => ?_⟩
  have hreset : Standing height (script.program (endLine script rest)).ops m.reset :=
    standing_reset hstart m
  -- the first instruction is one of them, with all others behind it
  obtain ⟨before, after, hplaces⟩ := List.append_of_mem hreset.1
  obtain ⟨hexecuted, hhalts⟩ := executed_of_forward hsorted (fun _ hm => hm.1)
    (fun _ _ hm hstep => standing_forward hfits hheights hfree.1 hm hstep) hreset hplaces steps
  constructor
  · rw [hplaces]
    exact hexecuted.trans (List.sublist_append_right before _)
  · intro hsteps
    apply hhalts
    have hlength := congrArg List.length hplaces
    rw [Instruction.length_offsets, List.length_append, List.length_cons] at hlength
    omega

/-- The tokens of `if (a) print nil; else print a;`. -/
def branchTokens : List Token :=
  [⟨.ifKw, "if", none, 1⟩, ⟨.leftParen, "(", none, 1⟩, ⟨.identifier, "a", none, 1⟩,
    ⟨.rightParen, ")", none, 1⟩, ⟨.printKw, "print", none, 1⟩, ⟨.nilKw, "nil", none, 1⟩,
    ⟨.semicolon, ";", none, 1⟩, ⟨.elseKw, "else", none, 2⟩, ⟨.printKw, "print", none, 2⟩,
    ⟨.identifier, "a", none, 2⟩, ⟨.semicolon, ";", none, 2⟩, ⟨.eof, "", none, 3⟩]

/-- A script with two branches. -/
theorem run_halts_branch :
    LoopFree branchTokens ∧
    ∃ chunk ops, (compile branchTokens).result = .ok chunk ∧ chunk.instructions = .ok ops ∧
      ∀ (m : Machine) (steps : Nat),
        (executed chunk steps m.reset).Sublist (offsets 0 ops) ∧
        (ops.length ≤ steps → (m.run chunk steps).1 ≠ .unfinished) := by
  have hfree : LoopFree branchTokens := by decide
  obtain ⟨chunk, hchunk⟩ : ∃ chunk, (compile branchTokens).result = .ok chunk :=
    exists_ok_of_isOk (by decide +kernel)
  obtain ⟨ops, hops, -, hruns⟩ := run_halts hchunk hfree
  exact ⟨hfree, chunk, ops, hchunk, hops, hruns⟩

end Machine

end StackScript
