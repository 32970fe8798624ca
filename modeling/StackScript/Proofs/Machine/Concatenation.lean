import StackScript.Proofs.Compile.Acceptance
import StackScript.Proofs.Machine.Relocation
import StackScript.Script

/-!
# Running two scripts as one

Two scripts, one below the other in one text, do what they do when they are run one after the other
on the same machine. Nothing but the variables and the output goes from the first to the second: the
first leaves an empty stack, and the code of the second is that of the second alone, moved.

* **`compile_eq_ok_iff`**: the chunks of the scripts that can be compiled.
* **`program_append`**: the code of two scripts below each other.
* **`execute_append`**: running them.
-/

namespace StackScript

open StackScript.Tree Compile

/-! ## The code of two scripts

Apart from the last instruction, the code of two scripts is that of the first and then that of the
second, moved. -/

namespace Tree

variable {script second : Decls} {line lines : Nat}

/-- The code of the first script, without its return, and then that of the second. -/
theorem program_append (script second : Decls) (line lines : Nat) :
    (script.append (second.later lines)).program (line + lines) =
      script.lower [] 0 ++
        (second.program line).moved (script.lower [] 0).constants.length lines := by
  rw [Decls.program, Decls.lower_append, Decls.blocks_nil, Decls.lower_later, Decls.program,
    Lowering.moved_append, Lowering.append_assoc]
  rfl

/-- Two scripts fit below each other if their constants fit in one pool. -/
theorem fits_append {last : Nat} (hfirst : ScriptFits last script)
    (hsecond : ScriptFits line second)
    (hroom : (script.lower [] 0).constants.length + (second.lower [] 0).constants.length ≤
      Chunk.maxConstants) :
    ScriptFits (line + lines) (script.append (second.later lines)) := by
  obtain ⟨hscoped, -, hdistances⟩ := hfirst
  obtain ⟨hscoped', -, hdistances'⟩ := hsecond
  refine ⟨?_, ?_, ?_⟩
  · rw [Decls.locals_append, Decls.blocks_nil]
    exact scoped_append.mpr ⟨hscoped, Decls.scoped_later lines hscoped'⟩
  · rw [program_append]
    simp only [Decls.program, Lowering.constants_append, Lowering.constants_moved,
      Lowering.constants_instruction, List.append_nil, List.length_append]
    omega
  · rw [program_append]
    simp only [Decls.program, Lowering.distances_append, Lowering.distances_instruction,
      List.append_nil] at hdistances hdistances'
    simp only [Decls.program, Lowering.distances_append, Lowering.distances_moved,
      Lowering.distances_instruction, List.append_nil]
    exact List.forall_mem_append.mpr ⟨hdistances, hdistances'⟩

end Tree

/-! ## Running the code of two scripts

The machine gets to the end of the first script, where the second one starts with an empty stack. -/

namespace Machine

/-- A script starts with an empty stack and ends with one. -/
theorem exists_heights {script : Decls} {line : Nat} (hfits : ScriptFits line script) :
    ∃ height, Heights (fun _ _ => False) script.tokens.length 0 (script.lower [] 0).ops height ∧
      height 0 = 0 ∧ height (script.lower [] 0).size = 0 := by
  obtain ⟨height, hheights, hstart, hend⟩ := flow_of_fits hfits
  rw [Nat.zero_add, Lowering.extent_ops] at hend
  exact ⟨height, hheights, hstart, hend⟩

/-- The code of two scripts runs as that of the first, and then as that of the second. -/
theorem run_append {first second : Decls} {line line' : Nat} (hfirst : ScriptFits line first)
    (hsecond : ScriptFits line' second) (lines : Nat)
    (hroom : (first.lower [] 0).constants.length + (second.lower [] 0).constants.length ≤
      Chunk.maxConstants) (steps : Nat) (m : Machine) :
    match run (Chunk.empty.extend (first.program line)) steps m with
    | (.finished, m') => ∃ taken, taken < steps ∧ ∀ more, ∃ last,
        run (Chunk.empty.extend ((first.append (second.later lines)).program (line' + lines)))
            (taken + more) m =
          ((run (Chunk.empty.extend (second.program line')) more m').1.mapError
              (RuntimeError.later lines),
            { (run (Chunk.empty.extend (second.program line')) more m').2.shift
              (first.lower [] 0).size lines with line := last })
    | ended =>
      run (Chunk.empty.extend ((first.append (second.later lines)).program (line' + lines))) steps m
        = ended := by
  rw [program_append]
  have hholds := Chunk.holds_extend_empty (first.lower [] 0 ++
    (second.program line').moved (first.lower [] 0).constants.length lines)
  obtain ⟨height, hheights, hstart, hempty⟩ := exists_heights hfirst
  obtain ⟨height', hheights', hstart', -⟩ := exists_heights hsecond
  -- the first script is not moved
  have hcarries : Carries (Chunk.empty.extend (first.lower [] 0 ++
      (second.program line').moved (first.lower [] 0).constants.length lines)) 0 0 0 first := by
    refine ⟨?_, by omega⟩
    rw [Lowering.moved_zero]
    exact hholds.left
  have hbody := runFrom_body hcarries hfirst hheights steps (standing_reset hstart m)
  unfold run
  cases hrun : runFrom (Chunk.empty.extend (first.program line)) steps m.reset with
  | mk outcome m' =>
    rw [hrun] at hbody
    cases outcome with
    | failed e | unfinished => exact hbody
    | finished =>
      obtain ⟨-, -, hstack, taken, last, htaken, hreaches⟩ := hbody
      refine ⟨taken, htaken, ?_⟩
      intro more
      -- the machine stands where the second script starts, as if it had been reset, but on the
      -- line on which the first one has ended
      have hreset : { m' with ip := (first.lower [] 0).size + 0, line := last } =
          { m'.reset.shift (first.lower [] 0).size lines with line := last } := by
        have hnil : m'.stack = #[] := Array.eq_empty_of_size_eq_zero (hstack.trans hempty)
        unfold shift reset
        rw [hnil, Nat.zero_add]
        rfl
      rw [hreset] at hreaches
      have hright := hholds.right
      rw [Nat.zero_add, Nat.zero_add] at hright
      have hafter := runFrom_program hright hroom hsecond hheights' more
        (standing_reset hstart' m')
      obtain ⟨last', hsame⟩ := exists_runFrom_line _ more
        (m'.reset.shift (first.lower [] 0).size lines) last
      refine ⟨last', (hreaches.runFrom_eq more).trans ?_⟩
      rw [hsame, hafter]

end Machine

/-! ## From the text of a script to its code

Scanning, compiling and running, put together. -/

namespace Script

/-- Compiling a text that can be scanned. -/
theorem compile_of_scan {source : String} {tokens : List Token}
    (h : Token.scan source = .ok tokens) :
    Script.compile source = (Compile.compile tokens).result.mapError .compile := by
  unfold Script.compile
  rw [h]
  rfl

/-- It compiles if its tokens do. -/
theorem compile_eq_ok_of_scan {source : String} {tokens : List Token} {chunk : Chunk}
    (h : Token.scan source = .ok tokens) :
    Script.compile source = .ok chunk ↔ (Compile.compile tokens).result = .ok chunk := by
  rw [compile_of_scan h]
  cases (Compile.compile tokens).result <;> simp [Except.mapError]

/-- The chunk of a text is the code of the script whose tokens the text has. -/
theorem compile_eq_ok_iff {source : String} {chunk : Chunk} :
    Script.compile source = .ok chunk ↔
      ∃ (script : Decls) (last : Nat), Token.scan source = .ok (script.tokens ++ [.eof last]) ∧
        script.Grouped ∧ ScriptFits last script ∧
        chunk = Chunk.empty.extend (script.program last) := by
  cases hscan : Token.scan source with
  | error e =>
    unfold Script.compile
    rw [hscan]
    constructor
    · intro h
      cases h
    · rintro ⟨_, _, h, _⟩
      cases h
  | ok tokens =>
    rw [compile_eq_ok_of_scan hscan]
    constructor
    · intro h
      obtain ⟨script, rest, hgrouped, rfl, hrest, hfits, rfl⟩ := result_compile_eq_ok.mp h
      obtain ⟨body, last, hbody, hkinds, -⟩ := (scans_of_scan hscan).exists_eof
      -- the tokens after the script are the end of the text and nothing else
      have hspells : script.Spells (body ++ [.eof last]) :=
        ⟨hgrouped, rest, hbody.symm, hrest⟩
      rw [← hspells.tokens_eq hkinds] at hbody
      obtain rfl := List.append_cancel_left hbody
      exact ⟨script, last, rfl, hgrouped, hfits, rfl⟩
    · rintro ⟨script, last, htokens, hgrouped, hfits, rfl⟩
      cases htokens
      exact (result_compile_eq_ok_iff hgrouped rfl).mpr ⟨hfits, rfl⟩

/-- Executing a text that compiles is running its code. -/
theorem execute_of_compile {source : String} {chunk : Chunk}
    (h : Script.compile source = .ok chunk) (steps : Nat) (m : Machine) :
    execute steps source m =
      ((m.run chunk steps).1.mapError .runtime, (m.run chunk steps).2) := by
  unfold execute
  rw [h]

/-- The error of a script that starts some lines further down. -/
def Error.later (lines : Nat) : Error → Error
  | runtime error => runtime (error.later lines)
  | error => error

/-- What a script has done, and what it has done as part of a longer one: only where the machine
stands in the code is different, and the line that it is on, which is the line of an error. -/
structure Alike (lines : Nat) (alone within : Outcome Error × Machine) : Prop where
  outcome : within.1 = alone.1.mapError (Error.later lines)
  stack : within.2.stack = alone.2.stack
  globals : within.2.globals = alone.2.globals
  output : within.2.output = alone.2.output

/-- **Scripts compose.** Two scripts that can be compiled, and whose constants fit in one pool, can
be compiled as one text. On any machine this text runs as the first script does until that is
finished, so it fails as the first script fails. From there on it does what the second script does
on the machine that the first one has left. -/
theorem execute_append {first second : String} {a b : Chunk}
    (ha : Script.compile first = .ok a) (hb : Script.compile second = .ok b)
    (hroom : a.constants.size + b.constants.size ≤ 256) :
    (∃ chunk, Script.compile (first ++ "\n" ++ second) = .ok chunk) ∧
      ∀ (m : Machine) (steps : Nat),
        match execute steps first m with
        | (.finished, m') => ∃ taken, taken < steps ∧ ∀ more,
            Alike (first.toList.count '\n' + 1) (execute more second m')
              (execute (taken + more) (first ++ "\n" ++ second) m)
        | ended => execute steps (first ++ "\n" ++ second) m = ended := by
  obtain ⟨script, last, hscan, hgrouped, hfits, rfl⟩ := compile_eq_ok_iff.mp ha
  obtain ⟨script', last', hscan', hgrouped', hfits', rfl⟩ := compile_eq_ok_iff.mp hb
  have hconstants : (script.lower [] 0).constants.length +
      (script'.lower [] 0).constants.length ≤ Chunk.maxConstants := by
    simpa [Chunk.maxConstants, Chunk.extend, Chunk.empty, Decls.program] using hroom
  -- the tokens of both texts, and the script that they spell
  obtain ⟨body, lines, htokens, hlines, hscan''⟩ := scan_append hscan hscan'
  obtain ⟨rfl, -⟩ := List.append_inj' htokens rfl
  have hboth : Token.scan (first ++ "\n" ++ second) =
      .ok ((script.append (script'.later lines)).tokens ++ [.eof (last' + lines)]) := by
    rw [hscan'', Decls.tokens_append, Decls.tokens_later, List.map_append, List.append_assoc]
    rfl
  have hcompile : Script.compile (first ++ "\n" ++ second) =
      .ok (Chunk.empty.extend ((script.append (script'.later lines)).program (last' + lines))) := by
    apply compile_eq_ok_iff.mpr
    refine ⟨_, _, hboth, ?_, fits_append hfits hfits' hconstants, rfl⟩
    rw [Decls.grouped_append, Decls.grouped_later]
    exact ⟨hgrouped, hgrouped'⟩
  refine ⟨⟨_, hcompile⟩, ?_⟩
  intro m steps
  have hrun := Machine.run_append hfits hfits' lines hconstants steps m
  rw [execute_of_compile ha, execute_of_compile hcompile]
  cases hfirst : m.run (Chunk.empty.extend (script.program last)) steps with
  | mk outcome m' =>
    rw [hfirst] at hrun
    cases outcome with
    | failed e | unfinished =>
      rw [hrun]
      rfl
    | finished =>
      obtain ⟨taken, htaken, hrest⟩ := hrun
      refine ⟨taken, htaken, ?_⟩
      intro more
      obtain ⟨line, hmore⟩ := hrest more
      rw [execute_of_compile hb, execute_of_compile hcompile, hmore, Nat.add_comm _ 1, ← hlines]
      refine ⟨?_, rfl, rfl, rfl⟩
      dsimp only
      cases (m'.run (Chunk.empty.extend (script'.program last')) more).1 <;> rfl

/-- A script is all right only if it is finished. -/
theorem ofOutcome_eq_ok {outcome : Outcome Error} (h : Status.ofOutcome outcome = .ok) :
    outcome = .finished := by
  match outcome with
  | .finished => rfl
  | .failed (.scan _) | .failed (.compile _) | .failed (.runtime _) | .unfinished => cases h

/-- The first script ends in a comment, and the second one fails in its second line. -/
theorem execute_append_comment :
    ∃ a b, Script.compile "var a = nil; // later" = .ok a ∧
      Script.compile "print a;\nprint -a;" = .ok b ∧ a.constants.size + b.constants.size ≤ 256 ∧
      ∃ steps, diagnostic (execute steps ("var a = nil; // later" ++ "\n" ++ "print a;\nprint -a;")
        (.start (.ofRoom none))).1 = "Operand must be a number.\n[line 3] in script\n" := by
  obtain ⟨a, ha⟩ : ∃ a, Script.compile "var a = nil; // later" = .ok a :=
    exists_ok_of_isOk (by decide +kernel)
  obtain ⟨b, hb⟩ : ∃ b, Script.compile "print a;\nprint -a;" = .ok b :=
    exists_ok_of_isOk (by decide +kernel)
  have hroom : a.constants.size + b.constants.size ≤ 256 := by
    have hsizes : ∀ source ∈ ["var a = nil; // later", "print a;\nprint -a;"],
        ∀ c ∈ (Script.compile source).toOption, c.constants.size ≤ 128 := by
      decide +kernel
    have hsize := hsizes _ (List.mem_cons_self ..) a (by rw [ha]; rfl)
    have hsize' := hsizes _ (List.mem_cons_of_mem _ (List.mem_cons_self ..)) b (by rw [hb]; rfl)
    omega
  refine ⟨a, b, ha, hb, hroom, ?_⟩
  -- the first script ends after three steps, and then the second one runs
  have hrun := (execute_append ha hb hroom).2 (.start (.ofRoom none)) 3
  have hfinished : (execute 3 "var a = nil; // later" (.start (.ofRoom none))).1 = .finished :=
    ofOutcome_eq_ok (by decide +kernel)
  rw [← Prod.eta (execute 3 _ _), hfinished] at hrun
  obtain ⟨taken, -, hrest⟩ := hrun
  refine ⟨taken + 6, ?_⟩
  rw [(hrest 6).outcome]
  decide +kernel

end Script

end StackScript
