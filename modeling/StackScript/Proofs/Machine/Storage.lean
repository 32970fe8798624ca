import StackScript.Proofs.Machine.Concatenation
import StackScript.Proofs.Machine.Lockstep
import StackScript.Proofs.Tree.OuterLocals

/-!
# Globals and locals are interchangeable

A script and the same script inside a block do the same, although the variables that it declares at
the top are globals in one case and locals in the other. The first machine stores the value of such
a variable with an instruction of its own, the second leaves it on the stack, and drops it at the
end. Everywhere else the two machines run through twins.

* **`Paired`**: code of two chunks that consists of twins. `Paired.advance` is one step in it, and
  `Paired.sideBySide` is a run through it.
* **`Nested`**: how the rest of a script lies in the two chunks.
* **`sideBySide_decls`**: a script without and with the block, declaration by declaration.
* **`execute_inBlock`**: the same for texts.
-/

namespace StackScript

open StackScript.Tree Compile

namespace Machine

open Instruction (located boundaries)
open Lowering (Supplied Twins exists_twin_at)

/-! ## Running through twins

Code with globals and code with locals, instruction by instruction. Each pair of instructions does
the same to a variable, wherever it is kept. -/

section Paired

variable {c d : Chunk} {names : List String} {m m' : Machine} {i i' : Instruction}

/-- Both machines move over an instruction of the same width. -/
theorem Alongside.past (h : Alongside names m m') (c d : Chunk) (hwidth : i'.width = i.width) :
    Alongside names (m.past c i) (m'.past d i') := by
  obtain ⟨frame, hframe, hmirrors⟩ := h
  refine ⟨frame, hframe, ?_, hmirrors.stack, hmirrors.globals, hmirrors.output⟩
  have hip := hmirrors.ip
  show m.ip + i.width = m'.ip + i'.width + 2 * frame.length
  omega

/-- Code of two chunks that consists of twins, with the heights of the first stack. Behind the
globals that the first machine has defined, its code lies further on. -/
structure Paired (c d : Chunk) (names : List String) (start : Nat) (l l' : Lowering)
    (height : Nat → Nat) : Prop where
  code : c.CodeAt (start + 2 * names.length) l.code
  code' : d.CodeAt start l'.code
  twins : Twins c d names l l'
  heights : ∃ limit, Heights (fun _ _ => False) limit (start + 2 * names.length) l.ops height

variable {start : Nat} {l l' : Lowering} {height : Nat → Nat}

/-- A step of both machines, unless both fail in the same way or a stack overflows. -/
theorem Paired.advance (h : Paired c d names start l l' height) (halong : Alongside names m m')
    (hi : (m.ip, i) ∈ located (start + 2 * names.length) l.ops)
    (hsize : m.stack.size = height m.ip) :
    (∃ next next', step c m = .ok .running next ∧ step d m' = .ok .running next' ∧
      Alongside names next next' ∧ next.ip ∈ boundaries (start + 2 * names.length) l.ops ∧
      next.stack.size = height next.ip) ∨
    Overflows d m' ∨
    ∃ fault last last', step c m = .error fault last ∧ step d m' = .error fault last' ∧
      d.line m'.ip = c.line m.ip ∧ Alongside names last last' := by
  obtain ⟨limit, hheights⟩ := h.heights
  have hip := halong.ip
  have hsafe := hheights.safe _ i hi
  rw [hip] at hi
  have hcode' : d.CodeAt (start + 0) l'.code := h.code'
  obtain ⟨i', htwin, hdecode, hdecode', hline⟩ := exists_twin_at h.twins h.code hcode' hi
  rw [← hip] at hdecode hline
  -- a jump back does not lead to before the code
  have hback : ∀ distance, i = .loop distance →
      distance.toNat + 2 * names.length ≤ (m.past c i).ip := by
    rintro distance rfl
    rcases hsafe.leads _ (List.mem_singleton.mpr rfl) with ⟨hboundary, -⟩ | hfalse
    · have hbounds := (Instruction.mem_boundaries_bounds hboundary).1
      have hleads := hsafe.leadsBack.2
      show distance.toNat + 2 * names.length ≤ m.ip + 3
      omega
    · exact hfalse.elim
  have htracks := tracks_execute htwin (halong.past c d htwin.width_eq)
    (hsafe.needs_le.trans_eq hsize.symm)
    (fun slot hslot => Nat.lt_of_lt_of_eq (hsafe.slot_lt slot hslot) hsize.symm) hback
  have hruns := runs_execute hsafe (fun _ => htwin.constant_lt) (fun _ => htwin.exists_name)
    (m := m.past c i) rfl hsize
  have hprogress : progress i = .running := if_neg hsafe.ne_ret
  have hprogress' : progress i' = .running := htwin.progress_eq.trans hprogress
  rw [step_of_decode hdecode, step_of_decode hdecode']
  -- what the second machine does decides, since only its stack can overflow alone
  unfold Tracks at htracks
  cases hexecute' : execute d i' (m'.past d i') with
  | ok _ next' =>
    rw [hexecute'] at htracks
    obtain ⟨next, hexecute, hnext⟩ := htracks
    unfold Runs at hruns
    rw [hexecute] at hruns
    obtain ⟨hleads, hheight⟩ := hruns
    refine .inl ⟨next, next', ?_, ?_, hnext, ?_⟩
    · rw [bind_of_ok hexecute, hprogress]
      rfl
    · rw [bind_of_ok hexecute', hprogress']
      rfl
    · rcases hsafe.leads _ hleads with ⟨hboundary, hafter⟩ | hfalse
      · exact ⟨hboundary, hheight.trans hafter.symm⟩
      · exact hfalse.elim
  | error fault last' =>
    rw [hexecute'] at htracks
    rcases htracks with rfl | ⟨last, hexecute, hlast⟩
    · have hfails : step d m' = .error .stackOverflow last' := by
        rw [step_of_decode hdecode', bind_of_error hexecute']
      exact .inr (.inl (overflows_of_step hfails))
    · refine .inr (.inr ⟨fault, last, last', ?_, ?_, hline, hlast⟩)
      · rw [bind_of_error hexecute]
      · rw [bind_of_error hexecute']

/-- A run through the code, if the machines can go on side by side after it. -/
theorem Paired.sideBySide {looks : Machine → Machine → Prop}
    (h : Paired c d names start l l' height)
    (hlooks : ∀ {n n'}, Alongside names n n' → looks n n')
    (hafter : ∀ {n n'}, Alongside names n n' → n.ip = start + 2 * names.length + l.size →
      n.stack.size = height n.ip → ∀ steps, SideBySide c d looks steps n n')
    (steps : Nat) (halong : Alongside names m m')
    (hip : m.ip ∈ boundaries (start + 2 * names.length) l.ops)
    (hsize : m.stack.size = height m.ip) : SideBySide c d looks steps m m' := by
  induction steps generalizing m m' with
  | zero => exact .zero (hlooks halong)
  | succ steps ih =>
    rcases List.mem_append.mp hip with hinside | hend
    · obtain ⟨⟨t, i⟩, hi, rfl⟩ := List.mem_map.mp hinside
      rcases h.advance halong hi hsize with
        ⟨next, next', hstep, hstep', hnext, hboundary, hheight⟩ | hover |
        ⟨fault, last, last', hstep, hstep', hline, hlast⟩
      · exact .of_both hstep hstep' (ih hnext hboundary hheight)
      · exact .of_overflow (.inr hover) _
      · exact .of_fault (hlooks halong) hstep hstep' hline (hlooks hlast) _
    · -- at the end of the code no step is taken
      rw [List.mem_singleton, Lowering.extent_ops] at hend
      exact hafter halong hend hsize _

end Paired

/-! ## Where only one machine takes a step

A declaration of a local has no instruction, and at the end of a block the locals are dropped. -/

/-- Two machines have printed the same, and their variables have the same values, but for those of
the given names. -/
structure Similar (declared : List String) (m m' : Machine) : Prop where
  output : m'.output = m.output
  globals : ∀ name, name ∉ declared → m'.globals[name]? = m.globals[name]?

section Alone

variable {c d : Chunk} {names declared : List String} {m m' : Machine}

/-- All locals are on the stack of the second machine. -/
theorem Alongside.length_le (h : Alongside names m m') : names.length ≤ m'.stack.size := by
  obtain ⟨frame, rfl, hmirrors⟩ := h
  rw [hmirrors.size_eq, List.length_map]
  exact Nat.le_add_right _ _

/-- The machines show the same, apart from the variables that are kept in different places. -/
theorem Alongside.similar (h : Alongside names m m') (hnames : names ⊆ declared) :
    Similar declared m m' where
  output := h.output
  globals _ hname := (h.globals (slot?_eq_none fun hmem => hname (hnames hmem))).symm

/-- The first machine stores the value of a variable that the second one leaves on the stack. -/
theorem Alongside.define {index : UInt8} {line : Nat} {name : String}
    (h : Alongside names m m') (hcode : c.CodeAt m.ip [(.defineGlobal index, line)])
    (hname : c.constants[index.toNat]? = some (.string name)) (hsize : m.stack.size = 1) :
    ∃ next, step c m = .ok .running next ∧ Alongside (name :: names) next m' ∧
      next.ip = m.ip + 2 ∧ next.stack.size = 0 := by
  obtain ⟨frame, rfl, hip, hstack, hglobals, houtput⟩ := h
  obtain ⟨stack, globals, ip, line₁, output⟩ := m
  obtain ⟨value, rfl⟩ : ∃ value, stack = #[value] := Array.size_eq_one_iff.mp hsize
  refine ⟨⟨#[], globals.insert name value, ip + 2, c.line ip, output⟩, ?_,
    ⟨(name, value) :: frame, rfl, ?_, ?_, ?_, houtput⟩, rfl, rfl⟩
  · refine step_of_execute hcode rfl (by simp) ?_
    rw [execute, bind_of_ok (nameAt_of_string hname _)]
    rfl
  -- the definition takes two bytes that the second code does not have
  · show ip + 2 = m'.ip + 2 * (frame.length + 1)
    have hshift : ip = m'.ip + 2 * frame.length := hip
    omega
  · simpa using hstack
  · -- the new value hides an older global of the name, and an older entry of the frame
    intro other
    have hother : globals[other]? = (frame.lookup other).or m'.globals[other]? := hglobals other
    show (globals.insert name value)[other]? = _
    rw [Std.ExtTreeMap.getElem?_insert, List.lookup_cons]
    by_cases heq : name = other
    · simp [heq]
    · simp [heq, beq_false_of_ne (Ne.symm heq), hother]

/-- The second machine drops its locals and ends where the first one ends. -/
theorem sideBySide_drop {line drop last count : Nat} (hsimilar : Similar declared m m')
    (hcode : c.CodeAt m.ip [(.ret, line)])
    (hcode' : d.CodeAt m'.ip ((dropLocals count drop).code ++ [(.ret, last)]))
    (hsize : count ≤ m'.stack.size) (steps : Nat) :
    SideBySide c d (Similar declared) steps m m' := by
  induction count generalizing m' steps with
  | zero =>
    exact .of_halt hsimilar (step_of_codeAt hcode rfl) (step_of_codeAt hcode' rfl)
      ⟨hsimilar.output, hsimilar.globals⟩ steps
  | succ count ih =>
    have hpos : 0 < m'.stack.size := by omega
    obtain ⟨value, hback⟩ := back?_isSome hpos
    let next' : Machine := { m'.atLine d with ip := m'.ip + 1, stack := m'.stack.pop }
    have hpop : execute d .pop (m'.past d .pop) = .ok () next' := by
      have htop : (m'.past d .pop).stack.back? = some value := hback
      exact discard_of_ok (by rw [pop_apply, htop]; rfl)
    -- the machine waits at its return while the other one takes this step
    have hstep := step_of_execute hcode' rfl (by decide) hpop
    have hrest : d.CodeAt next'.ip ((dropLocals count drop).code ++ [(.ret, last)]) :=
      hcode'.tail
    have hless : count ≤ next'.stack.size := by
      rw [Array.size_pop]
      omega
    exact .of_second hsimilar hstep
      (ih ⟨hsimilar.output, hsimilar.globals⟩ hrest hless) steps

end Alone

/-! ## Scripts without and with a block

By induction on the declarations. One more variable becomes a local with each declaration. -/

/-- The rest of a script in two chunks, at corresponding places. The second chunk has the whole
script in a block, in which the locals of the given names are declared already. -/
structure Nested (c d : Chunk) (declared : List String) (rest : Decls) (names : List String)
    (start base base' : Nat) : Prop where
  holds : ∃ line, c.Holds (start + 2 * names.length) base
    (rest.lower [] base ++ .instruction .ret line)
  holds' : ∃ drop line, d.Holds start base' (rest.lower [names] base' ++
    (dropLocals (innermost (rest.blocks [names])).length drop ++ .instruction .ret line))
  fits : PieceFits (rest.locals []) base (rest.lower [] base)
  fits' : PieceFits (rest.locals [names]) base' (rest.lower [names] base')
  length_le : [names].flatten.length ≤ Scope.maxLocals
  names_subset : names ⊆ declared
  rest_subset : rest.declared ⊆ declared

section Nested

variable {c d : Chunk} {declared names : List String} {rest : Decls} {start base base' : Nat}
  {m m' : Machine}

/-- The constants of a piece of code that is in a chunk. -/
theorem supplied_of_holds {chunk : Chunk} {offset : Nat} {l : Lowering}
    (h : chunk.Holds offset base l) (hlimits : l.Limits base) : Supplied chunk base l :=
  ⟨h.constants, hlimits.1⟩

/-- A statement consists of twins and leaves an empty stack, and the rest comes after it. -/
theorem Nested.statement {first : Stmt}
    (h : Nested c d declared (.statement first rest) names start base base') :
    (∃ height, Paired c d names start (first.lower [] base) (first.lower [names] base') height ∧
      height (start + 2 * names.length) = 0 ∧
      height (start + 2 * names.length + (first.lower [] base).size) = 0) ∧
    Nested c d declared rest names (start + (first.lower [] base).size)
      (base + (first.lower [] base).constants.length)
      (base' + (first.lower [names] base').constants.length) := by
  obtain ⟨⟨line, hc⟩, ⟨drop, last, hd⟩, hfits, hfits', hlength, hnames, hrest⟩ := h
  rw [Decls.lower, Lowering.append_assoc] at hc hd
  rw [Decls.lower, Decls.locals, pieceFits_append] at hfits hfits'
  obtain ⟨⟨hscoped, hlimits⟩, hrestFits⟩ := hfits
  obtain ⟨⟨hscoped', hlimits'⟩, hrestFits'⟩ := hfits'
  -- outside all blocks in the first code, in a block with the variables so far in the second
  have htwins : Twins c d names (first.lower [] base) (first.lower ([] ++ [names]) base') :=
    first.twins hlength hscoped' (supplied_of_holds hc.left hlimits)
      (supplied_of_holds hd.left hlimits')
  have hsize : (first.lower [names] base').size = (first.lower [] base).size := htwins.size_eq
  obtain ⟨height, hheights, hfirst, hlast⟩ :=
    first.flows (Nat.zero_le _) hscoped hlimits (start + 2 * names.length)
  rw [Lowering.extent_ops] at hlast
  refine ⟨⟨height, ⟨hc.left.code, hd.left.code, htwins, _, hheights⟩, hfirst, hlast⟩, ?_⟩
  have hrestCode := hc.right
  have hrestCode' := hd.right
  rw [Nat.add_right_comm] at hrestCode
  rw [hsize] at hrestCode'
  exact ⟨⟨line, hrestCode⟩, ⟨drop, last, hrestCode'⟩, hrestFits, hrestFits', hlength, hnames, hrest⟩

/-- The value of a declared variable consists of twins and leaves one value. The first chunk then
defines a global, and in the second the variable is a local for the rest. -/
theorem Nested.declaration {keyword : TokenOf .varKw} {v : VarDecl}
    (h : Nested c d declared (.declaration keyword v rest) names start base base') :
    (∃ height, Paired c d names start (v.lowerValue [] (base + 1))
        (v.lowerValue [names].flatten base') height ∧ height (start + 2 * names.length) = 0 ∧
      height (start + 2 * names.length + (v.lowerValue [] (base + 1)).size) = 1) ∧
    (∃ line, c.CodeAt (start + 2 * names.length + (v.lowerValue [] (base + 1)).size)
      [(.defineGlobal base.toUInt8, line)]) ∧
    c.constants[base.toUInt8.toNat]? = some (.string v.name.val.lexeme) ∧
    Nested c d declared rest (v.name.val.lexeme :: names)
      (start + (v.lowerValue [] (base + 1)).size)
      (base + (v.lower [] base).constants.length)
      (base' + (v.lower [names] base').constants.length) := by
  obtain ⟨⟨line, hc⟩, ⟨drop, last, hd⟩, hfits, hfits', hlength, hnames, hrest⟩ := h
  rw [Decls.lower, Lowering.append_assoc] at hc hd
  rw [Decls.lower, Decls.locals, pieceFits_append] at hfits hfits'
  obtain ⟨⟨-, hlimits⟩, hrestFits⟩ := hfits
  obtain ⟨⟨hscoped', hlimits'⟩, hrestFits'⟩ := hfits'
  have hname := supplied_of_holds hc.left hlimits
  rw [VarDecl.lower, Lowering.limits_append_instruction, Lowering.limits_append] at hlimits
  have htwins : Twins c d names (v.lowerValue ([] : Blocks).flatten (base + 1))
      (v.lowerValue ([] ++ [names]).flatten base') :=
    v.twins_lowerValue hlength hname.left.right (supplied_of_holds hd.left hlimits')
  have hsize : (v.lower [names] base').size = (v.lowerValue [] (base + 1)).size := htwins.size_eq
  obtain ⟨height, hheights, hfirst, hlast⟩ :=
    v.flows_lowerValue (Nat.zero_le _) (Nat.le_refl 0) hlimits.2 (start + 2 * names.length)
  rw [Lowering.extent_ops] at hlast
  refine ⟨⟨height, ⟨hc.left.left.right.code, hd.left.code, htwins, _, hheights⟩, hfirst, hlast⟩,
    ?_, hname.left.left.getElem?, ?_⟩
  · have hdefine := hc.left.right.code
    rw [Lowering.size_append, Lowering.size_pool, Nat.zero_add] at hdefine
    exact ⟨_, hdefine⟩
  · have hrestCode := hc.right
    have hrestCode' := hd.right
    have hoffset : start + 2 * names.length + (v.lower [] base).size =
        start + (v.lowerValue [] (base + 1)).size +
          2 * (v.name.val.lexeme :: names).length := by
      -- the instruction that defines the global has two bytes
      have hdefine : (v.lower [] base).size = (v.lowerValue [] (base + 1)).size + 2 := by
        rw [VarDecl.lower, Lowering.size_append, Lowering.size_append, Lowering.size_pool,
          Nat.zero_add]
        rfl
      rw [hdefine, List.length_cons]
      omega
    rw [hoffset] at hrestCode
    rw [hsize] at hrestCode'
    rw [Decls.declared, List.cons_subset] at hrest
    exact ⟨⟨line, hrestCode⟩, ⟨drop, last, hrestCode'⟩, hrestFits, hrestFits',
      length_declare_le hlength hscoped', List.cons_subset.mpr ⟨hrest.1, hnames⟩, hrest.2⟩

/-- The two machines run through the rest of the script side by side. -/
theorem sideBySide_decls (rest : Decls) {names : List String} {start base base' : Nat}
    (h : Nested c d declared rest names start base base') {m m' : Machine}
    (halong : Alongside names m m') (hip : m.ip = start + 2 * names.length)
    (hsize : m.stack.size = 0) (steps : Nat) :
    SideBySide c d (Similar declared) steps m m' := by
  have hsimilar : ∀ {n n'}, Alongside names n n' → Similar declared n n' :=
    fun hn => hn.similar h.names_subset
  match rest with
  | .nil =>
    obtain ⟨line, hc⟩ := h.holds
    obtain ⟨drop, last, hd⟩ := h.holds'
    have hcode : c.CodeAt m.ip [(.ret, line)] := by
      rw [hip]
      exact hc.code
    have hcode' : d.CodeAt m'.ip ((dropLocals names.length drop).code ++ [(.ret, last)]) := by
      have hstart : m'.ip = start := by
        have := halong.ip
        omega
      rw [hstart]
      exact hd.code
    exact sideBySide_drop (hsimilar halong) hcode hcode' halong.length_le steps
  | .statement first rest =>
    obtain ⟨⟨height, hpaired, hfirst, hlast⟩, hrest⟩ := h.statement
    refine hpaired.sideBySide hsimilar ?_ steps halong
      (hip ▸ Instruction.start_mem_boundaries _ _) (by rw [hip, hfirst, hsize])
    intro n n' hn hend hheight
    rw [hend, hlast] at hheight
    exact sideBySide_decls rest hrest hn (by omega) hheight
  | .declaration keyword v rest =>
    obtain ⟨⟨height, hpaired, hfirst, hlast⟩, ⟨line, hcode⟩, hname, hrest⟩ := h.declaration
    refine hpaired.sideBySide hsimilar ?_ steps halong
      (hip ▸ Instruction.start_mem_boundaries _ _) (by rw [hip, hfirst, hsize])
    intro n n' hn hend hheight
    rw [hend, hlast] at hheight
    rw [← hend] at hcode
    -- the first machine defines the global, and from now on its code lies two bytes further on
    obtain ⟨next, hstep, hnext, hnextIp, hempty⟩ := hn.define hcode hname hheight
    refine .of_first (hsimilar hn) hstep (sideBySide_decls rest hrest hnext ?_ hempty)
    rw [hnextIp, hend, List.length_cons]
    omega

/-- A script and the block around it start at the same place. -/
theorem nested_enclosed {script : Decls} {left : TokenOf .leftBrace} {right : TokenOf .rightBrace}
    {line line' : Nat} (hfits : ScriptFits line script)
    (hfits' : ScriptFits line' (Decls.enclosed left script right)) :
    Nested (Chunk.empty.extend (script.program line))
      (Chunk.empty.extend ((Decls.enclosed left script right).program line')) script.declared
      script [] 0 0 0 := by
  obtain ⟨hscoped, hlimits⟩ := hfits
  obtain ⟨hscoped', hlimits'⟩ := hfits'
  have hlower : (Decls.enclosed left script right).lower [] 0 = script.lower [[]] 0 ++
      dropLocals (innermost (script.blocks [[]])).length right.val.line := by
    rw [Decls.enclosed, Decls.lower, Decls.lower, Stmt.lower, Lowering.append_empty]
  have hlocals : (Decls.enclosed left script right).locals [] = script.locals [[]] := by
    rw [Decls.enclosed, Decls.locals, Decls.locals, Stmt.locals, List.append_nil]
  rw [hlocals] at hscoped'
  rw [Decls.program, Lowering.limits_append_instruction] at hlimits hlimits'
  rw [hlower, dropLocals, Lowering.limits_append_instructions] at hlimits'
  refine ⟨⟨line, Chunk.holds_extend_empty _⟩, ⟨right.val.line, line', ?_⟩, ⟨hscoped, hlimits⟩,
    ⟨hscoped', hlimits'⟩, Nat.zero_le _, List.nil_subset _, fun _ => id⟩
  rw [← Lowering.append_assoc, ← hlower]
  exact Chunk.holds_extend_empty _

end Nested

/-- Before a run the two machines have the same variables and have printed the same. -/
theorem alongside_reset {m m' : Machine} (hglobals : m'.globals = m.globals)
    (houtput : m'.output = m.output) : Alongside [] m.reset m'.reset := by
  refine ⟨[], rfl, rfl, rfl, ?_, houtput⟩
  intro name
  show m.globals[name]? = (none : Option Value).or m'.globals[name]?
  rw [hglobals, Option.none_or]

end Machine

/-! ## Texts

The block is put around the text of a script. -/

namespace Script

open Machine (Similar Concurs)

/-- The text of a script inside a block. -/
def inBlock (source : String) : String :=
  "\x7b" ++ source ++ "\n\x7d"

/-- The tokens are those of the script between two braces. -/
theorem scan_inBlock {source : String} {script : Decls} {last : Nat}
    (h : Token.scan source = .ok (script.tokens ++ [.eof last])) :
    ∃ left right, Token.scan (inBlock source) =
      .ok ((Decls.enclosed left script right).tokens ++ [.eof (1 + last)]) := by
  have hempty : Token.scan "" = .ok [.eof 1] := scan_of_scans (.eof rfl)
  have hopen := scan_brace (.inl ⟨rfl, rfl⟩) h
  have hclose := scan_brace (.inr ⟨rfl, rfl⟩) hempty
  obtain ⟨front, end', htokens, -, hscan⟩ := scan_append hopen hclose
  rw [← List.cons_append] at htokens
  obtain ⟨rfl, hend⟩ := List.append_inj' htokens rfl
  cases hend
  have htext : inBlock source = "\x7b" ++ source ++ "\n" ++ ("\x7d" ++ "") := by
    have hend : "\n\x7d" = "\n" ++ ("\x7d" ++ "") := rfl
    rw [inBlock, hend, ← String.append_assoc]
  refine ⟨⟨⟨.leftBrace, "\x7b", none, 1⟩, rfl⟩, ⟨⟨.rightBrace, "\x7d", none, 1 + last⟩, rfl⟩, ?_⟩
  rw [htext, hscan]
  simp [Decls.enclosed, Decls.tokens, Stmt.tokens, Token.later, Token.eof]

/-- The chunk of a text whose tokens are those of a given script. -/
theorem fits_of_compile {source : String} {script : Decls} {last : Nat} {chunk : Chunk}
    (hscan : Token.scan source = .ok (script.tokens ++ [.eof last])) (hgrouped : script.Grouped)
    (h : Script.compile source = .ok chunk) :
    ScriptFits last script ∧ chunk = Chunk.empty.extend (script.program last) := by
  have hresult : (Compile.compile (script.tokens ++ [.eof last])).result = .ok chunk := by
    unfold Script.compile at h
    rw [hscan] at h
    change (Compile.compile _).result.mapError Error.compile = .ok chunk at h
    cases hcompile : (Compile.compile (script.tokens ++ [.eof last])).result with
    | error errors => rw [hcompile] at h; cases h
    | ok chunk' => rw [hcompile] at h; cases h; rfl
  exact (result_compile_eq_ok_iff hgrouped rfl).mp hresult

/-- The script stops because its stack overflows. -/
def Overflows (source : String) (m : Machine) : Prop :=
  ∃ steps error, (execute steps source m).1 = .failed (.runtime error) ∧
    error.fault.message = "Stack overflow."

/-- A script overflows the stack if its code does. -/
theorem overflows_of_run {source : String} {chunk : Chunk} (h : Script.compile source = .ok chunk)
    {m : Machine} (hover : Machine.Overflows chunk m.reset) : Overflows source m := by
  obtain ⟨steps, line, last, hrun⟩ := hover
  refine ⟨steps, ⟨.stackOverflow, line⟩, ?_, rfl⟩
  rw [execute_of_compile h, Machine.run, hrun]
  rfl

/-- A script that comes to its end does not stop for want of room on the stack. -/
theorem not_overflows_of_finished {source : String} {chunk : Chunk}
    (hcompile : Script.compile source = .ok chunk) {steps : Nat} {m : Machine}
    (h : (execute steps source m).1 = .finished) : ¬ Overflows source m := by
  rintro ⟨steps', error, hfailed, -⟩
  rw [execute_of_compile hcompile] at h hfailed
  have hended : ∀ {n : Nat} {outcome : Outcome Error}, outcome ≠ .unfinished →
      (m.run chunk n).1.mapError .runtime = outcome → (m.run chunk n).1 ≠ .unfinished := by
    rintro n outcome hne rfl hunfinished
    rw [hunfinished] at hne
    exact hne rfl
  -- with the steps of both the run has ended in both ways
  have hfinish := Machine.runFrom_add (hended (by simp) h) steps'
  have hfail := Machine.runFrom_add (hended (by simp) hfailed) steps
  rw [Nat.add_comm, hfinish] at hfail
  have hsame : (m.run chunk steps).1 = (m.run chunk steps').1 := congrArg Prod.fst hfail
  rw [hsame, hfailed] at h
  cases h

/-- Scripts agree if their codes do. -/
theorem concurs_execute {source source' : String} {a b : Chunk}
    (ha : Script.compile source = .ok a) (hb : Script.compile source' = .ok b)
    {looks : Machine → Machine → Prop} {steps steps' : Nat} {m m' : Machine}
    (h : Concurs looks (Machine.runFrom a steps m.reset) (Machine.runFrom b steps' m'.reset)) :
    Concurs looks (execute steps source m) (execute steps' source' m') := by
  rw [execute_of_compile ha, execute_of_compile hb]
  exact ⟨congrArg (·.mapError Error.runtime) h.outcome, h.state⟩

/-- **Globals and locals are interchangeable.** A script that can be compiled both as it is and
inside a block does the same in both cases, on machines that have the same variables and have
printed the same, unless a stack overflows: each of the two runs comes to where the other one is,
with the same outcome and output. Afterwards all variables are the same but for those that the
script declares outside its blocks. -/
theorem execute_inBlock {source : String} {a b : Chunk} (ha : Script.compile source = .ok a)
    (hb : Script.compile (inBlock source) = .ok b) :
    ∃ tokens, Token.scan source = .ok tokens ∧ (∃ script : Decls, script.Spells tokens) ∧
      ∀ script : Decls, script.Spells tokens → ∀ m m' : Machine, m'.globals = m.globals →
        m'.output = m.output →
        (Overflows source m ∨ Overflows (inBlock source) m') ∨
        ((∀ steps, ∃ steps', Concurs (Similar script.declared) (execute steps source m)
            (execute steps' (inBlock source) m')) ∧
          ∀ steps', ∃ steps, Concurs (Similar script.declared) (execute steps source m)
            (execute steps' (inBlock source) m')) := by
  obtain ⟨found, last, hscan, hfound, -, -⟩ := compile_eq_ok_iff.mp ha
  refine ⟨_, hscan, ⟨found, hfound, _, rfl, rfl⟩, ?_⟩
  rintro script hspells m m' hglobals houtput
  -- any script with these tokens is the one that has been compiled
  rw [← hspells.tokens_eq (Decls.kind_ne_eof hfound)] at hscan
  obtain ⟨hfits, rfl⟩ := fits_of_compile hscan hspells.1 ha
  obtain ⟨left, right, hscan'⟩ := scan_inBlock hscan
  have hgrouped' : (Decls.enclosed left script right).Grouped := ⟨hspells.1, trivial⟩
  obtain ⟨hfits', rfl⟩ := fits_of_compile hscan' hgrouped' hb
  have hside := Machine.sideBySide_decls script (Machine.nested_enclosed hfits hfits')
    (Machine.alongside_reset hglobals houtput) rfl rfl
  by_cases hover : Machine.Overflows (Chunk.empty.extend (script.program last)) m.reset ∨
      Machine.Overflows (Chunk.empty.extend
        ((Decls.enclosed left script right).program (1 + last))) m'.reset
  · exact .inl (hover.imp (overflows_of_run ha) (overflows_of_run hb))
  · refine .inr ⟨fun steps => ?_, fun steps' => ?_⟩
    · obtain ⟨steps', hforth⟩ := (hside steps).forth.resolve_left hover
      exact ⟨steps', concurs_execute ha hb hforth⟩
    · obtain ⟨steps, hback⟩ := (hside steps').back.resolve_left fun h => hover h.symm
      exact ⟨steps, concurs_execute ha hb ⟨hback.outcome.symm, hback.state⟩⟩

/-- A global of the machine decides how often the loop runs, and the loop uses a variable that is
declared outside of it. -/
theorem execute_inBlock_loop :
    ∃ (source : String) (a b : Chunk) (tokens : List Token) (script : Decls) (m : Machine),
      source = "var a = x;\nwhile (a) \x7b var b = a; a = nil; print b; \x7d" ∧
      Script.compile source = .ok a ∧ Script.compile (inBlock source) = .ok b ∧
      Token.scan source = .ok tokens ∧ script.Spells tokens ∧
      m.globals = (∅ : Globals).insert "x" (.bool true) ∧
      ¬ (Overflows source m ∨ Overflows (inBlock source) m) ∧
      (execute 20 source m).1 = .finished ∧
      ∃ steps, Concurs (Similar script.declared) (execute 20 source m)
        (execute steps (inBlock source) m) := by
  obtain ⟨a, ha⟩ : ∃ a, Script.compile
      "var a = x;\nwhile (a) \x7b var b = a; a = nil; print b; \x7d" = .ok a :=
    exists_ok_of_isOk (by decide +kernel)
  obtain ⟨b, hb⟩ : ∃ b, Script.compile (inBlock
      "var a = x;\nwhile (a) \x7b var b = a; a = nil; print b; \x7d") = .ok b :=
    exists_ok_of_isOk (by decide +kernel)
  obtain ⟨tokens, hscan, ⟨script, hspells⟩, hexecute⟩ := execute_inBlock ha hb
  let m : Machine := { Machine.start (.ofRoom none) with
    globals := (∅ : Globals).insert "x" (.bool true) }
  have hfinished : (execute 20 "var a = x;\nwhile (a) \x7b var b = a; a = nil; print b; \x7d" m).1 =
      .finished := ofOutcome_eq_ok (by decide +kernel)
  have hfinished' : (execute 20 (inBlock
      "var a = x;\nwhile (a) \x7b var b = a; a = nil; print b; \x7d") m).1 =
      .finished := ofOutcome_eq_ok (by decide +kernel)
  -- both scripts end, so neither overflows the stack
  have hroom : ¬ (Overflows _ m ∨ Overflows _ m) :=
    not_or.mpr ⟨not_overflows_of_finished ha hfinished, not_overflows_of_finished hb hfinished'⟩
  obtain ⟨hforth, -⟩ := (hexecute script hspells m m rfl rfl).resolve_left hroom
  exact ⟨_, a, b, tokens, script, m, rfl, ha, hb, hscan, hspells, rfl, hroom, hfinished, hforth 20⟩

end Script

end StackScript
