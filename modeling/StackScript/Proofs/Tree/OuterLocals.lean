import StackScript.Proofs.Machine.Mirror

/-!
# The code of a tree inside one more block

If there is one more block around a statement, some of its variables may be locals of that block
that are globals otherwise, and its own locals lie higher on the stack. Nothing else changes: the
code has the same instructions, up to twins, on the same lines.

* **`Supplied`**: a chunk has the constants of a piece of code.
* **`Twins`**: two pieces of code whose instructions are twins.
* **`Expr.twins`**, **`Stmt.twins`**: the code of a tree, by induction on the tree.
-/

namespace StackScript

open Machine (Twin)

/-! ## Pieces of code

The same statement is compiled twice: outside of all blocks, where some names are globals, and
inside a block that declares these names. Corresponding instructions are twins. -/

namespace Lowering

/-- The constants of a piece of code are in the pool of a chunk from an index on. -/
structure Supplied (c : Chunk) (base : Nat) (l : Lowering) : Prop where
  constants : c.ConstantsAt base l.constants
  room : base + l.constants.length ≤ Chunk.maxConstants

section Supplied

variable {c : Chunk} {base : Nat} {a b : Lowering}

/-- The constants of the first of two pieces come first. -/
theorem Supplied.left (h : Supplied c base (a ++ b)) : Supplied c base a := by
  obtain ⟨hconstants, hroom⟩ := h
  rw [constants_append, List.length_append] at hroom
  exact ⟨hconstants.left, by omega⟩

/-- The constants of the second of two pieces come after them. -/
theorem Supplied.right (h : Supplied c base (a ++ b)) :
    Supplied c (base + a.constants.length) b := by
  obtain ⟨hconstants, hroom⟩ := h
  rw [constants_append, List.length_append] at hroom
  exact ⟨hconstants.right, by omega⟩

/-- Code without constants between two pieces does not count. -/
theorem Supplied.right_of_skips {skip : Lowering} (h : Supplied c base (a ++ skip ++ b))
    (hskip : skip.constants = []) : Supplied c (base + a.constants.length) b := by
  have hb := h.right
  rwa [constants_append, hskip, List.append_nil] at hb

/-- The first constant is at the index that its instruction gives in a byte. -/
theorem Supplied.getElem? {value : Value} {rest : List Value}
    (h : Supplied c base (pool (value :: rest))) :
    c.constants[base.toUInt8.toNat]? = some value := by
  have hroom := h.room
  rw [constants_pool, List.length_cons] at hroom
  rw [toNat_toUInt8 (by omega)]
  exact h.constants.getElem?

end Supplied

/-- The instructions of two pieces of code are twins on the same lines. -/
def Twins (c d : Chunk) (names : List String) (l l' : Lowering) : Prop :=
  List.Forall₂ (fun i i' => Twin c d names i.1 i'.1 ∧ i'.2 = i.2) l.code l'.code

section Twins

variable {c d : Chunk} {names : List String} {l l' a a' b b' : Lowering}

/-- Twins in a sequence. -/
theorem Twins.append (ha : Twins c d names a a') (hb : Twins c d names b b') :
    Twins c d names (a ++ b) (a' ++ b') :=
  List.rel_append ha hb

/-- Twins have the same size. -/
theorem Twins.size_eq (h : Twins c d names l l') : l'.size = l.size := by
  unfold Twins at h
  unfold size
  generalize l.code = code at h
  generalize l'.code = code' at h
  induction h with
  | nil => rfl
  | cons hi _ ih => rw [codeSize_cons, codeSize_cons, ih, hi.1.width_eq]

theorem twins_empty : Twins c d names empty empty := .nil

theorem twins_pool (values values' : List Value) :
    Twins c d names (pool values) (pool values') := .nil

/-- A piece of one instruction. -/
theorem twins_instruction {i i' : Instruction} (h : Twin c d names i i') (line : Nat) :
    Twins c d names (instruction i line) (instruction i' line) :=
  .cons ⟨h, rfl⟩ .nil

/-- An instruction that refers to neither a constant nor a slot is its own twin. -/
theorem twins_plain {i : Instruction} (hconstant : i.constant? = none) (hslot : i.slot? = none)
    (line : Nat) : Twins c d names (instruction i line) (instruction i line) :=
  twins_instruction (.same hconstant hslot) line

theorem twins_instructions {is : List Instruction}
    (h : ∀ i ∈ is, i.constant? = none ∧ i.slot? = none) (line : Nat) :
    Twins c d names (instructions is line) (instructions is line) := by
  unfold Twins instructions
  apply List.forall₂_same.mpr
  intro entry hentry
  obtain ⟨i, hi, rfl⟩ := List.mem_map.mp hentry
  exact ⟨.same (h i hi).1 (h i hi).2, rfl⟩

/-- Jumps over code of the same size. -/
theorem twins_jump {make : UInt16 → Instruction} (hconstant : ∀ n, (make n).constant? = none)
    (hslot : ∀ n, (make n).slot? = none) {distance distance' : Nat} (h : distance' = distance)
    (line : Nat) : Twins c d names (jump make distance line) (jump make distance' line) := by
  subst h
  exact .cons ⟨.same (hconstant _) (hslot _), rfl⟩ .nil

/-- Jumps over twins have the same distance. -/
theorem twins_jumpIfFalse {distance distance' : Nat} (h : distance' = distance) (line : Nat) :
    Twins c d names (jump .jumpIfFalse distance line) (jump .jumpIfFalse distance' line) :=
  twins_jump (fun _ => rfl) (fun _ => rfl) h line

theorem twins_jumpForward {distance distance' : Nat} (h : distance' = distance) (line : Nat) :
    Twins c d names (jump .jump distance line) (jump .jump distance' line) :=
  twins_jump (fun _ => rfl) (fun _ => rfl) h line

theorem twins_loop {distance distance' : Nat} (h : distance' = distance) (line : Nat) :
    Twins c d names (jump .loop distance line) (jump .loop distance' line) :=
  twins_jump (fun _ => rfl) (fun _ => rfl) h line

/-- At each instruction of the first code, the second chunk has its twin on the same line. -/
theorem exists_twin_at {code code' : List (Instruction × Nat)} {origin shift shift' start : Nat}
    {i : Instruction}
    (htwins : List.Forall₂ (fun i i' => Twin c d names i.1 i'.1 ∧ i'.2 = i.2) code code')
    (hcode : c.CodeAt (start + shift) code) (hcode' : d.CodeAt (start + shift') code') {t : Nat}
    (hi : (t + origin, i) ∈ Instruction.located (start + origin) (code.map (·.1))) :
    ∃ i', Twin c d names i i' ∧ Instruction.decode c.code (t + shift) = .ok i ∧
      Instruction.decode d.code (t + shift') = .ok i' ∧
      d.line (t + shift') = c.line (t + shift) := by
  induction htwins generalizing start with
  | nil => cases hi
  | @cons first first' rest rest' hfirst _ ih =>
    obtain ⟨htwin, hline⟩ := hfirst
    rw [List.map_cons, Instruction.located, List.mem_cons, Prod.mk.injEq] at hi
    rcases hi with ⟨ht, rfl⟩ | hi
    · obtain rfl : t = start := by omega
      refine ⟨first'.1, htwin, hcode.decode, hcode'.decode, ?_⟩
      rw [hcode.line, hcode'.line, hline]
    · -- twins have the same width, so what follows them is just as far apart
      have hwidth := htwin.width_eq
      have htail := hcode.tail
      have htail' := hcode'.tail
      rw [Nat.add_right_comm] at htail htail' hi
      rw [hwidth] at htail'
      exact ih htail htail' hi

end Twins

end Lowering

namespace Tree

open Lowering (Supplied Twins twins_empty twins_pool twins_instruction twins_plain
  twins_instructions twins_jumpIfFalse twins_jumpForward twins_loop)
open Lowering (instruction instructions pool jump)

variable {c d : Chunk} {names : List String}

/-! ## Branches and loops

Since twins have the same size, the jumps around them are the same. -/

/-- Conditionals with twins as branches. -/
theorem twins_lowerBranches {line between : Nat} {first first' second second' : Lowering}
    (hfirst : Twins c d names first first') (hsecond : Twins c d names second second') :
    Twins c d names (lowerBranches line first between second)
      (lowerBranches line first' between second') := by
  have hover : first'.size + 3 = first.size + 3 := by rw [hfirst.size_eq]
  exact (((twins_jumpIfFalse hover line).append hfirst).append
    (twins_jumpForward hsecond.size_eq between)).append hsecond

/-- Each branch finds its constants in the pool. -/
theorem supplied_lowerBranches {base line between : Nat} {first second : Lowering}
    (h : Supplied c base (lowerBranches line first between second)) :
    Supplied c base first ∧ Supplied c (base + first.constants.length) second := by
  refine ⟨h.left.left.right, ?_⟩
  have hsecond := h.right
  simpa using hsecond

/-- Code that may be missing is missing in both pieces or in none. -/
inductive OptionTwins (c d : Chunk) (names : List String) :
    Option Lowering → Option Lowering → Prop
  | none : OptionTwins c d names none none
  | some {code code' : Lowering} (h : Twins c d names code code') :
      OptionTwins c d names (some code) (some code')

/-- A clause of a loop, if it is there. -/
theorem optionTwins_map {α : Type} {value : Option α} {f f' : α → Lowering}
    (h : ∀ x ∈ value, Twins c d names (f x) (f' x)) :
    OptionTwins c d names (value.map f) (value.map f') := by
  cases value with
  | none => exact .none
  | some x => exact .some (h x rfl)

section Loops

variable {test test' increment increment' : Option Lowering} {body body' : Lowering}

theorem OptionTwins.testSize_eq (h : OptionTwins c d names test test') :
    testSize test' = testSize test := by
  cases h with
  | none => rfl
  | some hcode => rw [testSize, testSize, hcode.size_eq]

/-- The test of a loop. -/
theorem twins_lowerTest (h : OptionTwins c d names test test') {rest rest' : Nat}
    (hrest : rest' = rest) (line : Nat) :
    Twins c d names (lowerTest line rest test) (lowerTest line rest' test') := by
  subst hrest
  cases h with
  | none => exact twins_empty
  | some hcode =>
    exact (hcode.append (twins_jumpIfFalse rfl line)).append (twins_plain rfl rfl line)

/-- The increment of a loop. -/
theorem twins_lowerIncrement (h : OptionTwins c d names increment increment') {before before' : Nat}
    (hbefore : before' = before) (enter leave : Nat) :
    Twins c d names (lowerIncrement enter leave before increment)
      (lowerIncrement enter leave before' increment') := by
  subst hbefore
  cases h with
  | none => exact twins_empty
  | some hcode =>
    have hsize := hcode.size_eq
    exact ((twins_jumpForward (by omega) enter).append hcode).append
      (twins_loop (by omega) leave)

theorem twins_lowerExit (h : OptionTwins c d names test test') (line : Nat) :
    Twins c d names (lowerExit line test) (lowerExit line test') := by
  cases h with
  | none => exact twins_empty
  | some => exact twins_plain rfl rfl line

/-- Loops with twins as clauses and bodies. -/
theorem twins_lowerLoop (htest : OptionTwins c d names test test')
    (hincrement : OptionTwins c d names increment increment') (hbody : Twins c d names body body')
    (enter leave line : Nat) :
    Twins c d names (lowerLoop test enter increment leave body line)
      (lowerLoop test' enter increment' leave body' line) := by
  have hstep := twins_lowerIncrement hincrement htest.testSize_eq enter leave
  have hround : roundSize test' increment' = roundSize test increment := by
    cases hincrement with
    | none => exact htest.testSize_eq
    | some hcode => rw [roundSize, roundSize, hcode.size_eq]
  have hsize := hbody.size_eq
  have hskip := hstep.size_eq
  refine ((((twins_lowerTest htest ?_ enter).append hstep).append hbody).append
    (twins_loop ?_ line)).append (twins_lowerExit htest line)
  · omega
  · omega

/-- A chunk with the constants of a loop has those of its parts. -/
theorem supplied_lowerLoop {base enter leave line : Nat}
    (h : Supplied c base (lowerLoop test enter increment leave body line)) :
    (∀ code ∈ test, Supplied c base code) ∧
      (∀ code ∈ increment, Supplied c (base + constantCount test) code) ∧
      Supplied c (base + constantCount test + constantCount increment) body := by
  have htest := h.left.left.left.left
  have hstep := h.left.left.left.right
  have hbody := h.left.left.right
  rw [length_constants_lowerTest] at hstep
  rw [Lowering.constants_append, List.length_append, length_constants_lowerTest,
    length_constants_lowerIncrement, ← Nat.add_assoc] at hbody
  refine ⟨?_, ?_, hbody⟩
  · rintro code ⟨rfl⟩
    exact htest.left.left
  · rintro code ⟨rfl⟩
    exact hstep.left.right

end Loops

/-! ## Variables

Inside the block a local of the statement has a slot that is larger by the number of outer names. A
global of one of these names has become a local. -/

theorem slot?_eq_none {name : String} {names : List String} (h : name ∉ names) :
    slot? name names = none := by
  induction names with
  | nil => rfl
  | cons x rest ih =>
    rw [List.mem_cons, not_or] at h
    rw [slot?, if_neg (Ne.symm h.1), ih h.2]

/-- A local of the statement comes after the outer ones. -/
theorem slot?_append_of_some {name : String} {inner : List String} {slot : Nat}
    (h : slot? name inner = some slot) (names : List String) :
    slot? name (inner ++ names) = some (slot + names.length) := by
  induction inner with
  | nil => cases h
  | cons x rest ih =>
    rw [slot?] at h
    rw [List.cons_append, slot?]
    split at h
    · rename_i hx
      cases h
      rw [if_pos hx, List.length_append]
    · rename_i hx
      rw [if_neg hx, ih h]

/-- A name that the statement does not declare is looked for among the outer ones. -/
theorem slot?_append_of_none {name : String} {inner : List String} (h : slot? name inner = none)
    (names : List String) : slot? name (inner ++ names) = slot? name names := by
  induction inner with
  | nil => rfl
  | cons x rest ih =>
    rw [slot?] at h
    rw [List.cons_append, slot?]
    split at h
    · cases h
    · rename_i hx
      rw [if_neg hx, ih h]

/-- A variable is an inner local, which lies higher, or a local of the outer block, or a global. -/
theorem twin_reach {inner : List String} {name : String} {base base' : Nat}
    (hlocals : (inner ++ names).length ≤ Compile.Scope.maxLocals)
    (h : Supplied c base (pool (nameConstants inner name)))
    (h' : Supplied d base' (pool (nameConstants (inner ++ names) name))) :
    Twin c d names (reach inner base name).get (reach (inner ++ names) base' name).get ∧
      Twin c d names (reach inner base name).set (reach (inner ++ names) base' name).set := by
  have hbyte : ∀ {slot}, slot < (inner ++ names).length → slot.toUInt8.toNat = slot :=
    fun hlt => toNat_toUInt8 (Nat.lt_of_lt_of_le hlt hlocals)
  unfold reach nameConstants at *
  cases hinner : slot? name inner with
  | some slot =>
    -- the locals of the outer block lie below it
    have hlt := slot?_lt (slot?_append_of_some hinner names)
    simp only [slot?_append_of_some hinner]
    have hshift : (slot + names.length).toUInt8.toNat = slot.toUInt8.toNat + names.length := by
      rw [hbyte hlt, hbyte (by omega)]
    exact ⟨.getLocal hshift, .setLocal hshift⟩
  | none =>
    -- without the outer block the variable is global in any case
    simp only [hinner] at h
    have hname := h.getElem?
    have houter := slot?_append_of_none hinner names
    cases hmoved : slot? name names with
    | some slot =>
      have hlt := slot?_lt (houter.trans hmoved)
      simp only [houter, hmoved]
      have hslot : slot? name names = some slot.toUInt8.toNat := by rw [hbyte hlt, hmoved]
      exact ⟨.getMoved hname hslot, .setMoved hname hslot⟩
    | none =>
      simp only [houter, hmoved] at h' ⊢
      exact ⟨.getGlobal hname h'.getElem? hmoved, .setGlobal hname h'.getElem? hmoved⟩

/-! ## Expressions

By induction on the expression, with the locals of the statement as `inner`. -/

/-- An expression is compiled to twins. -/
theorem Expr.twins {inner : List String} (e : Expr) {base base' : Nat}
    (hlocals : (inner ++ names).length ≤ Compile.Scope.maxLocals)
    (h : Supplied c base (e.lower inner base))
    (h' : Supplied d base' (e.lower (inner ++ names) base')) :
    Twins c d names (e.lower inner base) (e.lower (inner ++ names) base') := by
  induction e generalizing base base' with
  | constant value word => cases value <;> exact twins_plain rfl rfl _
  | number token value reads | string token =>
    exact (twins_pool _ _).append
      (twins_instruction (.constant h.left.getElem? h'.left.getElem?) _)
  | name token =>
    exact (twins_pool _ _).append (twins_instruction (twin_reach hlocals h.left h'.left).1 _)
  | assign target equal value ih =>
    have hvalue := ih h.left.right h'.left.right
    -- the pools may differ by the name, but a pool takes no code
    exact ((twins_pool _ _).append hvalue).append
      (twins_instruction (twin_reach hlocals h.left.left h'.left.left).2 _)
  | grouping left operand right ih => exact ih h h'
  | unary operator token operand ih =>
    exact (ih h.left h'.left).append (by cases operator <;> exact twins_plain rfl rfl _)
  | binary operator left token right ihleft ihright =>
    have hplain : ∀ i ∈ operator.instructions, i.constant? = none ∧ i.slot? = none := by
      cases operator <;> decide
    exact ((ihleft h.left.left h'.left.left).append (ihright h.left.right h'.left.right)).append
      (twins_instructions hplain _)
  | and left token right ihleft ihright =>
    have hpop : Twins c d names (instruction .pop token.val.line)
        (instruction .pop token.val.line) := twins_plain rfl rfl _
    -- the operands have the same size in both codes, and so the jumps have the same distance
    have hsecond := hpop.append
      (ihright (h.right_of_skips rfl).right (h'.right_of_skips rfl).right)
    exact ((ihleft h.left.left h'.left.left).append
      (twins_jumpIfFalse hsecond.size_eq _)).append hsecond
  | or left token right ihleft ihright =>
    simp only [Expr.lower_or] at h h' ⊢
    have hpop : Twins c d names (instruction .pop token.val.line)
        (instruction .pop token.val.line) := twins_plain rfl rfl _
    have hsecond := hpop.append (ihright (supplied_lowerBranches h.right).2.right
      (supplied_lowerBranches h'.right).2.right)
    exact (ihleft h.left h'.left).append (twins_lowerBranches twins_empty hsecond)

/-! ## Statements

By mutual recursion. The blocks of the statement are `blocks`, and the outer names are behind them.
-/

/-- An expression among the locals of all blocks. -/
theorem Expr.twins_flatten {blocks : Blocks} (e : Expr) {base base' : Nat}
    (hlocals : (blocks ++ [names]).flatten.length ≤ Compile.Scope.maxLocals)
    (h : Supplied c base (e.lower blocks.flatten base))
    (h' : Supplied d base' (e.lower (blocks ++ [names]).flatten base')) :
    Twins c d names (e.lower blocks.flatten base) (e.lower (blocks ++ [names]).flatten base') := by
  rw [List.flatten_concat] at *
  exact e.twins hlocals h h'

/-- The value of a variable. -/
theorem VarDecl.twins_lowerValue {blocks : Blocks} (declared : VarDecl) {base base' : Nat}
    (hlocals : (blocks ++ [names]).flatten.length ≤ Compile.Scope.maxLocals)
    (h : Supplied c base (declared.lowerValue blocks.flatten base))
    (h' : Supplied d base' (declared.lowerValue (blocks ++ [names]).flatten base')) :
    Twins c d names (declared.lowerValue blocks.flatten base)
      (declared.lowerValue (blocks ++ [names]).flatten base') := by
  obtain ⟨name, initializer, semicolon⟩ := declared
  cases initializer with
  | none => exact twins_plain rfl rfl _
  | some initializer => exact initializer.2.twins_flatten hlocals h h'

/-- The first clause of a loop, which is always inside a block. -/
theorem ForStart.twins {block : List String} {outer : Blocks} (start : ForStart) {base base' : Nat}
    (hlocals : (block :: outer ++ [names]).flatten.length ≤ Compile.Scope.maxLocals)
    (h : Supplied c base (start.lower (block :: outer) base))
    (h' : Supplied d base' (start.lower (block :: outer ++ [names]) base')) :
    Twins c d names (start.lower (block :: outer) base)
      (start.lower (block :: outer ++ [names]) base') := by
  cases start with
  | none semicolon => exact twins_empty
  | declaration keyword declared => exact declared.twins_lowerValue hlocals h h'
  | expression value semicolon =>
    exact (value.twins_flatten hlocals h.left h'.left).append (twins_plain rfl rfl _)

theorem twins_dropLocals (count line : Nat) :
    Twins c d names (dropLocals count line) (dropLocals count line) := by
  refine twins_instructions (fun i hi => ?_) line
  rw [List.eq_of_mem_replicate hi]
  exact ⟨rfl, rfl⟩

/-- The names that a list of declarations declares, without those in its statements. -/
def Decls.declared : Decls → List String
  | .nil => []
  | .declaration _ d rest => d.name.val.lexeme :: rest.declared
  | .statement _ rest => rest.declared

/-- A script that consists of a block with the given one in it. -/
def Decls.enclosed (left : TokenOf .leftBrace) (script : Decls) (right : TokenOf .rightBrace) :
    Decls :=
  .statement (.block left script right) .nil

/-- Inside a block, blocks further out do not change which locals are declared. -/
theorem Decls.blocks_append : ∀ (ds : Decls) (block : List String) (outer more : Blocks),
    ds.blocks (block :: outer ++ more) = ds.blocks (block :: outer) ++ more
  | .nil, _, _, _ => rfl
  | .declaration _ declared rest, block, outer, more =>
    blocks_append rest (declared.name.val.lexeme :: block) outer more
  | .statement _ rest, block, outer, more => blocks_append rest block outer more

theorem ForStart.blocks_append (start : ForStart) (block : List String) (outer more : Blocks) :
    start.blocks (block :: outer ++ more) = start.blocks (block :: outer) ++ more := by
  cases start <;> rfl

/-- What is declared in the innermost block does not depend on the outer names. -/
theorem innermost_append {inner blocks : Blocks} (h : inner = innermost inner :: blocks)
    (more : Blocks) : innermost (inner ++ more) = innermost inner := by
  rw [h]
  rfl

mutual

/-- One more block around a statement changes its code to twins. -/
theorem Stmt.twins (t : Stmt) {blocks : Blocks} {base base' : Nat}
    (hlocals : (blocks ++ [names]).flatten.length ≤ Compile.Scope.maxLocals)
    (hscoped : Scoped (t.locals (blocks ++ [names])))
    (h : Supplied c base (t.lower blocks base))
    (h' : Supplied d base' (t.lower (blocks ++ [names]) base')) :
    Twins c d names (t.lower blocks base) (t.lower (blocks ++ [names]) base') := by
  match t with
  | .print keyword value semicolon | .expression value semicolon =>
    rw [Stmt.lower] at h h' ⊢
    exact (value.twins_flatten hlocals h.left h'.left).append (twins_plain rfl rfl _)
  | .conditional keyword condition body otherwise =>
    rw [Stmt.locals, scoped_append] at hscoped
    rw [Stmt.lower] at h h' ⊢
    obtain ⟨hfirst, hsecond⟩ := supplied_lowerBranches h.right
    obtain ⟨hfirst', hsecond'⟩ := supplied_lowerBranches h'.right
    have htest := condition.value.twins_flatten hlocals h.left h'.left
    have hbody := body.twins hlocals hscoped.1 hfirst.right hfirst'.right
    have hotherwise := otherwise.twins hlocals hscoped.2 hsecond.right hsecond'.right
    exact htest.append (twins_lowerBranches ((twins_plain rfl rfl _).append hbody)
      ((twins_plain rfl rfl _).append hotherwise))
  | .whileLoop keyword condition body =>
    rw [Stmt.lower] at h h' ⊢
    obtain ⟨htest, -, hbody⟩ := supplied_lowerLoop h
    obtain ⟨htest', -, hbody'⟩ := supplied_lowerLoop h'
    exact twins_lowerLoop
      (.some (condition.value.twins_flatten hlocals (htest _ rfl) (htest' _ rfl))) .none
      (body.twins hlocals hscoped hbody hbody') _ _ _
  | .forLoop keyword clauses body =>
    have hblocks := clauses.start.blocks_append [] blocks [names]
    have hcount := innermost_append (clauses.start.blocks_cons [] blocks) [names]
    have hopened : ([] :: blocks ++ [names]).flatten.length ≤ Compile.Scope.maxLocals := hlocals
    rw [Stmt.locals, scoped_append] at hscoped
    have hinner := ForStart.length_blocks_le hopened hscoped.1
    -- the loop opens a block of its own, so the outer one stays behind all the others
    rw [Stmt.lower] at h h'
    rw [Stmt.lower, Stmt.lower]
    simp only [← List.cons_append, hblocks, hcount] at hscoped hinner h' ⊢
    obtain ⟨htest, hstep, hbody⟩ := supplied_lowerLoop h.left.right
    obtain ⟨htest', hstep', hbody'⟩ := supplied_lowerLoop h'.left.right
    have hstart := clauses.start.twins hopened h.left.left h'.left.left
    refine (hstart.append (twins_lowerLoop ?_ ?_
      (body.twins hinner hscoped.2 hbody hbody') _ _ _)).append (twins_dropLocals _ _)
    · refine optionTwins_map fun e he => ?_
      exact e.twins_flatten hinner (htest _ (Option.mem_map_of_mem _ he))
        (htest' _ (Option.mem_map_of_mem _ he))
    · refine optionTwins_map fun e he => ?_
      have hcode := hstep _ (Option.mem_map_of_mem _ he)
      have hcode' := hstep' _ (Option.mem_map_of_mem _ he)
      exact (e.twins_flatten hinner hcode.left hcode'.left).append (twins_plain rfl rfl _)
  | .block left body right =>
    have hcount := innermost_append (body.blocks_cons [] blocks) [names]
    have hopened : ([] :: blocks ++ [names]).flatten.length ≤ Compile.Scope.maxLocals := hlocals
    rw [Stmt.locals] at hscoped
    rw [Stmt.lower] at h h'
    rw [Stmt.lower, Stmt.lower]
    have hbody := body.twins hopened hscoped h.left h'.left
    rw [← List.cons_append, body.blocks_append, hcount]
    exact hbody.append (twins_dropLocals _ _)

/-- An `else` branch. -/
theorem Else.twins (o : Else) {blocks : Blocks} {base base' : Nat}
    (hlocals : (blocks ++ [names]).flatten.length ≤ Compile.Scope.maxLocals)
    (hscoped : Scoped (o.locals (blocks ++ [names])))
    (h : Supplied c base (o.lower blocks base))
    (h' : Supplied d base' (o.lower (blocks ++ [names]) base')) :
    Twins c d names (o.lower blocks base) (o.lower (blocks ++ [names]) base') := by
  match o with
  | .none =>
    rw [Else.lower]
    exact twins_empty
  | .branch keyword body =>
    rw [Else.lower] at h h' ⊢
    exact body.twins hlocals hscoped h h'

/-- Inside a block the declared variables are locals anyway. -/
theorem Decls.twins (ds : Decls) {block : List String} {outer : Blocks} {base base' : Nat}
    (hlocals : (block :: outer ++ [names]).flatten.length ≤ Compile.Scope.maxLocals)
    (hscoped : Scoped (ds.locals (block :: outer ++ [names])))
    (h : Supplied c base (ds.lower (block :: outer) base))
    (h' : Supplied d base' (ds.lower (block :: outer ++ [names]) base')) :
    Twins c d names (ds.lower (block :: outer) base)
      (ds.lower (block :: outer ++ [names]) base') := by
  match ds with
  | .nil =>
    rw [Decls.lower]
    exact twins_empty
  | .declaration keyword declared rest =>
    rw [Decls.locals, scoped_append] at hscoped
    rw [Decls.lower] at h h' ⊢
    have hfirst := declared.twins_lowerValue hlocals h.left h'.left
    have hrest := rest.twins (length_declare_le hlocals hscoped.1) hscoped.2 h.right h'.right
    exact hfirst.append hrest
  | .statement first rest =>
    rw [Decls.locals, scoped_append] at hscoped
    rw [Decls.lower] at h h' ⊢
    have hfirst := first.twins hlocals hscoped.1 h.left h'.left
    have hrest := rest.twins hlocals hscoped.2 h.right h'.right
    exact hfirst.append hrest

end

end Tree

end StackScript
