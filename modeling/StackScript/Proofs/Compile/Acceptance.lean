import StackScript.Proofs.Compile.Correctness
import StackScript.Proofs.Token.Scanning
import StackScript.Proofs.Tree.Grammar
import StackScript.Script

/-!
# Which scripts compile

A script compiles exactly if it follows the grammar, declares its locals properly, and keeps three
limits: on its constants, on its locals and on the distances of its jumps.

* **`Decls.globalNames`**: the uses of names that do not mean a local.
* **`Decls.length_constants`**: every literal and every such use takes a constant.
* **`exists_result_iff`**: the language that the compiler accepts.
-/

namespace StackScript

open StackScript.Tree

/-! ## Counting constants

Every literal takes a constant and so does every use of a global, since constants are not shared. So
the constants of a script can be counted without compiling it. -/

/-- The kinds of tokens that denote a value of their own. -/
def Kind.isLiteral : Kind → Bool
  | .number | .string => true
  | _ => false

namespace Tree

/-- The number of tokens that denote a value of their own. -/
def literalCount (tokens : List Token) : Nat :=
  tokens.countP (·.kind.isLiteral)

/-- The names that do not mean one of the given locals. -/
def globalsAmong (locals names : List String) : List String :=
  names.filter (· ∉ locals)

/-- The names in an expression that may be left out. -/
def optionalNames : Option Expr → List String
  | none => []
  | some value => value.names

def VarDecl.globalNames (blocks : Blocks) (d : VarDecl) : List String :=
  match blocks with
  | [] => d.name.val.lexeme :: d.valueNames
  | _ :: _ => globalsAmong blocks.flatten d.valueNames

def ForStart.globalNames (blocks : Blocks) : ForStart → List String
  | none _ => []
  | declaration _ declared => declared.globalNames blocks
  | expression value _ => globalsAmong blocks.flatten value.names

mutual

/-- The uses of names in a statement that do not mean a local, with the names of globals where they
are declared. -/
def Stmt.globalNames (blocks : Blocks) : Stmt → List String
  | .print _ value _ | .expression value _ => globalsAmong blocks.flatten value.names
  | .conditional _ condition body otherwise =>
    globalsAmong blocks.flatten condition.value.names ++
      (body.globalNames blocks ++ otherwise.globalNames blocks)
  | .whileLoop _ condition body =>
    globalsAmong blocks.flatten condition.value.names ++ body.globalNames blocks
  | .forLoop _ clauses body =>
    let inner := clauses.start.blocks ([] :: blocks)
    clauses.start.globalNames ([] :: blocks) ++
      (globalsAmong inner.flatten (optionalNames clauses.condition) ++
        (globalsAmong inner.flatten (optionalNames clauses.increment) ++ body.globalNames inner))
  | .block _ body _ => body.globalNames ([] :: blocks)

def Else.globalNames (blocks : Blocks) : Else → List String
  | .none => []
  | .branch _ body => body.globalNames blocks

def Decls.globalNames (blocks : Blocks) : Decls → List String
  | .nil => []
  | .declaration _ declared rest =>
    declared.globalNames blocks ++ rest.globalNames (blocks.declare declared.name.val.lexeme)
  | .statement first rest => first.globalNames blocks ++ rest.globalNames blocks

end

/-! ### Counts of parts

How literals and globals are counted in lists that are put together. -/

@[simp] theorem literalCount_nil : literalCount [] = 0 := rfl

@[simp] theorem literalCount_append (a b : List Token) :
    literalCount (a ++ b) = literalCount a + literalCount b :=
  List.countP_append

/-- A token of another kind does not count. -/
theorem literalCount_cons_of_not {kind : Kind} (h : kind.isLiteral = false) (t : TokenOf kind)
    (rest : List Token) : literalCount (t.val :: rest) = literalCount rest :=
  List.countP_cons_of_neg (by rw [t.property, h]; decide)

/-- A literal counts as one. -/
theorem literalCount_cons_of_isLiteral {kind : Kind} (h : kind.isLiteral = true) (t : TokenOf kind)
    (rest : List Token) : literalCount (t.val :: rest) = literalCount rest + 1 :=
  List.countP_cons_of_pos (by rw [t.property, h])

@[simp] theorem globalsAmong_nil (locals : List String) : globalsAmong locals [] = [] := rfl

@[simp] theorem globalsAmong_append (locals a b : List String) :
    globalsAmong locals (a ++ b) = globalsAmong locals a ++ globalsAmong locals b :=
  List.filter_append ..

/-- A name without a slot is the name of a global. -/
theorem slot?_eq_none_iff {name : String} {names : List String} :
    slot? name names = none ↔ name ∉ names := by
  induction names with
  | nil => simp [slot?]
  | cons x rest ih =>
    rw [slot?, List.mem_cons]
    by_cases hx : x = name
    · simp [hx]
    · rw [if_neg hx, ih]
      simp [Ne.symm hx]

/-- A name takes a constant if it is that of a global. -/
theorem length_nameConstants (names : List String) (name : String) :
    (nameConstants names name).length = (globalsAmong names [name]).length := by
  unfold nameConstants
  cases h : slot? name names with
  | none => simp [globalsAmong, slot?_eq_none_iff.mp h]
  | some slot =>
    have hmem : name ∈ names := by
      by_cases hmem : name ∈ names
      · exact hmem
      · rw [slot?_eq_none_iff.mpr hmem] at h
        cases h
    simp [globalsAmong, hmem]

/-! ### Counts of trees

By recursion on the tree. No token other than a literal is counted. -/

theorem Expr.length_constants (names : List String) (e : Expr) (base : Nat) :
    (e.lower names base).constants.length =
      literalCount e.tokens + (globalsAmong names e.names).length := by
  induction e generalizing base with
  | constant value word =>
    rw [Expr.tokens, literalCount_cons_of_not (by cases value <;> rfl)]
    rfl
  | number token value reads =>
    rw [Expr.tokens, literalCount_cons_of_isLiteral rfl]
    rfl
  | string token =>
    rw [Expr.tokens, literalCount_cons_of_isLiteral rfl]
    rfl
  -- no literal, and a constant only if it is the name of a global
  | name token =>
    rw [Expr.tokens, literalCount_cons_of_not rfl, Expr.lower]
    simp [Expr.names, length_nameConstants]
  | assign target equal value ih =>
    rw [Expr.tokens, literalCount_cons_of_not rfl, literalCount_cons_of_not rfl, Expr.lower,
      Expr.names, ← List.singleton_append, globalsAmong_append]
    simp only [Lowering.constants_append, Lowering.constants_pool, Lowering.constants_instruction,
      List.length_append, length_nameConstants, ih, List.length_nil]
    omega
  | grouping left inner right ih =>
    rw [Expr.tokens, literalCount_cons_of_not rfl, literalCount_append,
      literalCount_cons_of_not rfl]
    exact ih base
  | unary operator token operand ih =>
    rw [Expr.tokens, literalCount_cons_of_not (by cases operator <;> rfl), Expr.lower]
    simp [ih, Expr.names]
  | binary operator left token right ihleft ihright =>
    rw [Expr.tokens, literalCount_append, literalCount_cons_of_not (by cases operator <;> rfl),
      Expr.lower, Expr.names, globalsAmong_append]
    simp only [Lowering.constants_append, Lowering.constants_instructions, List.length_append,
      ihleft, ihright, List.length_nil]
    omega
  -- the jump between the operands adds no constant
  | and left token right ihleft ihright | or left token right ihleft ihright =>
    rw [Expr.tokens, literalCount_append, literalCount_cons_of_not rfl, Expr.lower, Expr.names,
      globalsAmong_append]
    simp only [Lowering.constants_append, Lowering.constants_instruction, Lowering.constants_jump,
      List.length_append, ihleft, ihright, List.length_nil]
    omega

/-- Without locals, all names are those of globals. -/
theorem globalsAmong_nil_left (names : List String) : globalsAmong [] names = names := by
  simp [globalsAmong]

theorem VarDecl.length_constants_lowerValue (names : List String) (d : VarDecl) (base : Nat) :
    (d.lowerValue names base).constants.length =
      literalCount d.tokens + (globalsAmong names d.valueNames).length := by
  obtain ⟨name, initializer, semicolon⟩ := d
  cases initializer with
  | none =>
    rw [VarDecl.tokens, literalCount_cons_of_not rfl, literalCount_cons_of_not rfl]
    rfl
  | some initializer =>
    rw [VarDecl.tokens, literalCount_cons_of_not rfl, literalCount_cons_of_not rfl,
      literalCount_append, literalCount_cons_of_not rfl]
    exact initializer.2.length_constants names base

/-- A global takes a constant for its own name too. -/
theorem VarDecl.length_constants (blocks : Blocks) (d : VarDecl) (base : Nat) :
    (d.lower blocks base).constants.length =
      literalCount d.tokens + (d.globalNames blocks).length := by
  cases blocks with
  | nil =>
    rw [VarDecl.lower, VarDecl.globalNames]
    simp only [Lowering.constants_append, Lowering.constants_pool, Lowering.constants_instruction,
      List.length_append, d.length_constants_lowerValue, globalsAmong_nil_left, List.length_cons,
      List.length_nil]
    omega
  | cons block outer => exact d.length_constants_lowerValue _ base

theorem ForStart.length_constants (blocks : Blocks) (start : ForStart) (base : Nat) :
    (start.lower blocks base).constants.length =
      literalCount start.tokens + (start.globalNames blocks).length := by
  cases start with
  | none semicolon =>
    rw [ForStart.tokens, literalCount_cons_of_not rfl]
    rfl
  | declaration keyword declared =>
    rw [ForStart.tokens, literalCount_cons_of_not rfl]
    exact declared.length_constants blocks base
  | expression value semicolon =>
    rw [ForStart.tokens, literalCount_append, literalCount_cons_of_not rfl, ForStart.lower,
      ForStart.globalNames]
    simp [value.length_constants]

/-- The parentheses are no literals. -/
theorem Condition.literalCount_tokens (c : Condition) :
    literalCount c.tokens = literalCount c.value.tokens := by
  rw [Condition.tokens, literalCount_cons_of_not rfl, literalCount_append,
    literalCount_cons_of_not rfl]
  rfl

theorem ForClauses.literalCount_tokens (c : ForClauses) :
    literalCount c.tokens = literalCount c.start.tokens +
      (literalCount (optionalTokens c.condition) + literalCount (optionalTokens c.increment)) := by
  rw [ForClauses.tokens, literalCount_cons_of_not rfl, literalCount_append, literalCount_append,
    literalCount_cons_of_not rfl, literalCount_append, literalCount_cons_of_not rfl]
  rfl

theorem lowerDiscarded_length_constants (names : List String) (base : Nat) (e : Expr) :
    (lowerDiscarded names base e).constants.length =
      literalCount e.tokens + (globalsAmong names e.names).length := by
  simp [lowerDiscarded, e.length_constants]

/-- The same for a clause that may be missing. -/
theorem constantCount_map {lower : Expr → Lowering} {names : List String}
    (h : ∀ e : Expr, (lower e).constants.length =
      literalCount e.tokens + (globalsAmong names e.names).length) (value : Option Expr) :
    constantCount (value.map lower) =
      literalCount (optionalTokens value) + (globalsAmong names (optionalNames value)).length := by
  cases value with
  | none => rfl
  | some e => exact h e

mutual

theorem Stmt.length_constants (t : Stmt) (blocks : Blocks) (base : Nat) :
    (t.lower blocks base).constants.length =
      literalCount t.tokens + (t.globalNames blocks).length := by
  match t with
  | .print keyword value semicolon =>
    rw [Stmt.tokens, literalCount_cons_of_not rfl, literalCount_append,
      literalCount_cons_of_not rfl, Stmt.lower, Stmt.globalNames]
    simp [value.length_constants]
  | .expression value semicolon =>
    rw [Stmt.tokens, literalCount_append, literalCount_cons_of_not rfl, Stmt.lower,
      Stmt.globalNames]
    simp [value.length_constants]
  | .conditional keyword condition body otherwise =>
    rw [Stmt.tokens, literalCount_cons_of_not rfl, literalCount_append, literalCount_append,
      condition.literalCount_tokens, Stmt.lower, Stmt.globalNames]
    simp only [Lowering.constants_append, List.length_append, length_constants_lowerBranches,
      Lowering.constants_instruction, List.nil_append, condition.value.length_constants,
      body.length_constants, otherwise.length_constants]
    omega
  | .whileLoop keyword condition body =>
    rw [Stmt.tokens, literalCount_cons_of_not rfl, literalCount_append,
      condition.literalCount_tokens, Stmt.lower, Stmt.globalNames]
    simp only [length_constants_lowerLoop, List.length_append, constantCount,
      condition.value.length_constants, body.length_constants]
    omega
  -- the variable of the loop is a local for the clauses behind it
  | .forLoop keyword clauses body =>
    rw [Stmt.tokens, literalCount_cons_of_not rfl, literalCount_append,
      clauses.literalCount_tokens, Stmt.lower, Stmt.globalNames]
    simp only [Lowering.constants_append, List.length_append, length_constants_lowerLoop,
      dropLocals, Lowering.constants_instructions, List.length_nil, clauses.start.length_constants,
      constantCount_map fun e => e.length_constants _ _,
      constantCount_map (lowerDiscarded_length_constants _ _), body.length_constants]
    omega
  | .block left body right =>
    rw [Stmt.tokens, literalCount_cons_of_not rfl, literalCount_append,
      literalCount_cons_of_not rfl, Stmt.lower, Stmt.globalNames]
    simp [dropLocals, body.length_constants]

theorem Else.length_constants (o : Else) (blocks : Blocks) (base : Nat) :
    (o.lower blocks base).constants.length =
      literalCount o.tokens + (o.globalNames blocks).length := by
  match o with
  | .none => rfl
  | .branch keyword body =>
    rw [Else.tokens, literalCount_cons_of_not rfl, Else.lower, Else.globalNames]
    exact body.length_constants blocks base

/-- The constants of declarations. The blocks change from one to the next. -/
theorem Decls.length_constants (ds : Decls) (blocks : Blocks) (base : Nat) :
    (ds.lower blocks base).constants.length =
      literalCount ds.tokens + (ds.globalNames blocks).length := by
  match ds with
  | .nil => rfl
  | .declaration keyword declared rest =>
    rw [Decls.tokens, literalCount_cons_of_not rfl, literalCount_append, Decls.lower,
      Decls.globalNames]
    simp only [Lowering.constants_append, List.length_append, declared.length_constants,
      rest.length_constants]
    omega
  | .statement first rest =>
    rw [Decls.tokens, literalCount_append, Decls.lower, Decls.globalNames]
    simp only [Lowering.constants_append, List.length_append, first.length_constants,
      rest.length_constants]
    omega

end

/-! ## The tokens of a script

Where the tokens of a script end, and the theorem on the scripts that compile. -/

/-- The mark for the end is not part of any statement. -/
theorem Decls.kind_ne_eof {script : Decls} (h : script.Grouped) :
    ∀ t ∈ script.tokens, t.kind ≠ .eof := by
  intro t ht heof
  have hmem : Kind.eof ∈ script.tokens.map Token.kind := List.mem_map.mpr ⟨t, ht, heof⟩
  exact (derives_decls script h).eof_notMem rfl hmem

/-- Where only the last token is the end, all others are those of the script. -/
theorem Decls.Spells.tokens_eq_of_eof {script : Decls} {body : List Token} {eof : Token}
    (h : script.Spells (body ++ [eof])) (heof : eof.kind = .eof)
    (hbody : ∀ t ∈ body, t.kind ≠ .eof) : script.tokens = body := by
  obtain ⟨hgrouped, rest, htokens, hrest⟩ := h
  cases rest with
  | nil =>
    -- the end would be one of the script's own tokens
    rw [List.append_nil] at htokens
    have hmem : eof ∈ script.tokens := by
      rw [← htokens]
      exact List.mem_append_right _ (List.mem_singleton.mpr rfl)
    exact absurd heof (Decls.kind_ne_eof hgrouped _ hmem)
  | cons t rest =>
    rcases List.eq_nil_or_concat rest with rfl | ⟨more, x, rfl⟩
    · exact (List.append_inj' htokens rfl).1.symm
    · -- the end would not come last
      rw [List.concat_eq_append, ← List.cons_append, ← List.append_assoc] at htokens
      have hmem : t ∈ body := by
        rw [(List.append_inj' htokens rfl).1]
        exact List.mem_append_right _ (List.mem_cons_self ..)
      exact absurd hrest (hbody t hmem)

/-- If there is one mark at the end, all tokens before it belong to the script. -/
theorem Decls.Spells.tokens_eq {script : Decls} {body : List Token} {last : Nat}
    (h : script.Spells (body ++ [.eof last])) (hbody : ∀ t ∈ body, t.kind ≠ .eof) :
    script.tokens = body :=
  h.tokens_eq_of_eof rfl hbody

end Tree

namespace Compile

/-- What the compiler asks of a script, one by one. -/
theorem scriptFits_iff {script : Decls} {line : Nat} :
    ScriptFits line script ↔
      (∀ l ∈ script.locals [], l.2.IsNew l.1) ∧
      (∀ l ∈ script.locals [], l.2.IsIndependent) ∧
      literalCount script.tokens + (script.globalNames []).length ≤ 256 ∧
      (∀ l ∈ script.locals [], l.1.flatten.length + 1 ≤ 256) ∧
      ∀ d ∈ (script.lower [] 0).distances, d ≤ 65535 := by
  rw [ScriptFits, PieceFits, scoped_iff, Decls.program, Lowering.limits_append_instruction,
    Lowering.Limits, script.length_constants, Nat.zero_add]
  constructor
  · rintro ⟨⟨hnew, hindependent, hslots⟩, hconstants, hdistances⟩
    exact ⟨hnew, hindependent, hconstants, hslots, hdistances⟩
  · rintro ⟨hnew, hindependent, hconstants, hslots, hdistances⟩
    exact ⟨⟨hnew, hindependent, hslots⟩, hconstants, hdistances⟩

/-- **The compiler accepts exactly the language.** The tokens of a text compile if and only if their
kinds are derivable from the grammar, so that they are those of a script, and of that script: no
local is declared twice in a block; the value of no local uses the local; the literals and the uses
of globals are at most 256; at most 256 locals are in scope at once; and no jump is longer than
65535 bytes. -/
theorem exists_result_iff {source : String} {tokens : List Token}
    (hscan : Token.scan source = .ok tokens) :
    (Derives (.ref .program) (tokens.map Token.kind) ↔ ∃ script : Decls, script.Spells tokens) ∧
    ((∃ chunk, (compile tokens).result = .ok chunk) ↔
      Derives (.ref .program) (tokens.map Token.kind) ∧
      ∀ script : Decls, script.Spells tokens →
        (∀ l ∈ script.locals [], l.2.IsNew l.1) ∧
        (∀ l ∈ script.locals [], l.2.IsIndependent) ∧
        literalCount tokens + (script.globalNames []).length ≤ 256 ∧
        (∀ l ∈ script.locals [], l.1.flatten.length + 1 ≤ 256) ∧
        ∀ d ∈ (script.lower [] 0).distances, d ≤ 65535) := by
  obtain ⟨body, last, rfl, hbody, hnumbers⟩ := (scans_of_scan hscan).exists_eof
  -- the scanner has read the value of every number
  have hread : ∀ t ∈ body ++ [.eof last], t.IsReadable := by
    intro t ht hkind
    rcases List.mem_append.mp ht with ht | ht
    · obtain ⟨value, hvalue⟩ := hnumbers t ht hkind
      rw [Token.numberValue?, hvalue]
      rfl
    · obtain rfl := List.mem_singleton.mp ht
      cases hkind
  have hcount : literalCount (body ++ [.eof last]) = literalCount body := by
    rw [literalCount_append]
    rfl
  have hderives : Derives (.ref .program) ((body ++ [Token.eof last]).map Token.kind) ↔
      ∃ script : Decls, script.Spells (body ++ [.eof last]) := by
    rw [derives_program_iff hread]
    constructor
    · rintro ⟨script, eof, hgrouped, htokens⟩
      exact ⟨script, hgrouped, [eof.val], htokens, eof.property⟩
    · rintro ⟨script, hspells⟩
      refine ⟨script, ⟨.eof last, rfl⟩, hspells.1, ?_⟩
      rw [hspells.tokens_eq hbody]
  refine ⟨hderives, ?_⟩
  rw [hderives, hcount]
  constructor
  · rintro ⟨chunk, hchunk⟩
    obtain ⟨script, rest, hgrouped, htokens, hrest, -, -⟩ := result_compile_eq_ok.mp hchunk
    refine ⟨⟨script, hgrouped, rest, htokens, hrest⟩, fun script hspells => ?_⟩
    rw [← hspells.tokens_eq hbody]
    obtain ⟨hgrouped, rest, htokens, hrest⟩ := hspells
    rw [htokens] at hchunk
    exact scriptFits_iff.mp ((result_compile_eq_ok_iff hgrouped hrest).mp hchunk).1
  -- the limits hold of every script with these tokens, so they do of this one
  · rintro ⟨⟨script, hspells⟩, hall⟩
    have hfits := hall script hspells
    rw [← hspells.tokens_eq hbody] at hfits
    obtain ⟨hgrouped, rest, htokens, hrest⟩ := hspells
    rw [htokens]
    exact ⟨_, (result_compile_eq_ok_iff hgrouped hrest).mpr ⟨scriptFits_iff.mpr hfits, rfl⟩⟩

/-- A script with a global, a local and a loop. -/
theorem exists_result_iff_block :
    ∃ tokens, Token.scan "var a = 1; { var b = a; while (b < 9) b = b + a; }" = .ok tokens ∧
      (∃ chunk, (compile tokens).result = .ok chunk) ∧
      Derives (.ref .program) (tokens.map Token.kind) ∧
      ∃ script : Decls, script.Spells tokens ∧
        literalCount tokens + (script.globalNames []).length ≤ 256 := by
  have hok : (Script.compile "var a = 1; { var b = a; while (b < 9) b = b + a; }").isOk := by
    decide +kernel
  obtain ⟨chunk, hchunk⟩ := exists_ok_of_isOk hok
  unfold Script.compile at hchunk
  cases hscan : Token.scan "var a = 1; { var b = a; while (b < 9) b = b + a; }" with
  | error e =>
    rw [hscan] at hchunk
    cases hchunk
  | ok tokens =>
    rw [hscan] at hchunk
    obtain ⟨hspells, haccepts⟩ := exists_result_iff hscan
    -- a script compiles only if its tokens do
    have hresult : ∃ chunk, (compile tokens).result = .ok chunk := by
      cases hresult : (compile tokens).result with
      | error errors =>
        change (compile tokens).result.mapError Script.Error.compile = .ok chunk at hchunk
        rw [hresult] at hchunk
        cases hchunk
      | ok chunk => exact ⟨chunk, rfl⟩
    obtain ⟨hderives, hscript⟩ := haccepts.mp hresult
    obtain ⟨script, hscriptSpells⟩ := hspells.mp hderives
    exact ⟨tokens, rfl, hresult, hderives, script, hscriptSpells,
      (hscript script hscriptSpells).2.2.1⟩

end Compile

end StackScript
