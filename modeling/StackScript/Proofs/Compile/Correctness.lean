import StackScript.Proofs.Compile.WellFormed
import StackScript.Proofs.Machine.StatementRun
import StackScript.Proofs.Tree.Behaviour

/-!
# Compiled code does what the script says

The code of a script shows the behaviour of the script: it finishes, fails or runs on forever
exactly if the evaluation does, with the same variables, the same output and the same error.

* **`Decls.Spells`**: the tokens are those of the script.
* **`shows_of_shows`**: the machine shows what the evaluation shows. It has only one behaviour, so
  the converse follows.
* **`shows_compile_iff`**: the correctness of the compiler.
-/

namespace StackScript

open StackScript.Tree Compile

namespace Machine

/-- What a run leaves for others to see. -/
def observe (chunk : Chunk) (m : Machine) (steps : Nat) :
    Outcome RuntimeError × Globals × Array UInt8 :=
  let (outcome, m') := run chunk steps m
  (outcome, m'.globals, m'.output.written)

/-- What is observed at the end does not change with more steps. -/
theorem observe_add (chunk : Chunk) (m : Machine) (steps more : Nat)
    (h : (observe chunk m steps).1 ≠ .unfinished) :
    observe chunk m (steps + more) = observe chunk m steps := by
  unfold observe run
  rw [runFrom_add h]

/-- As long as it has steps to go a run is not finished. -/
theorem Reaches.observe_unfinished {chunk : Chunk} {m m' : Machine} {count steps : Nat}
    (h : Reaches chunk count m.reset m') (hsteps : steps ≤ count) :
    (observe chunk m steps).1 = .unfinished :=
  h.unfinished hsteps

/-- The machine halts at the next step. -/
theorem Reaches.observe_finished {chunk : Chunk} {m m' last : Machine} {count : Nat}
    (h : Reaches chunk count m.reset m') (hstep : step chunk m' = .ok .halted last) :
    observe chunk m (count + 1) = (.finished, last.globals, last.output.written) := by
  unfold observe run
  rw [h.runFrom_eq 1, runFrom_of_halt hstep]

/-- The machine fails at the next step. -/
theorem Reaches.observe_failed {chunk : Chunk} {m m' last : Machine} {count : Nat}
    {e : RuntimeError} (h : Reaches chunk count m.reset m')
    (hstep : step chunk m' = .error e.fault last) (hline : chunk.line m'.ip = e.line) :
    observe chunk m (count + 1) = (.failed e, last.globals, last.output.written) := by
  unfold observe run
  rw [h.runFrom_eq 1, runFrom_of_fault hstep, hline]

end Machine

namespace Tree

/-- The variables and the output before a script runs on a machine. -/
def Store.before (m : Machine) : Store where
  frames := []
  globals := m.globals
  printed := m.output.written

variable {script : Decls} {line : Nat} {m : Machine}

/-- The machine follows a whole script up to its return. -/
theorem follows_script (hfits : ScriptFits line script) (hroom : m.output.room = none)
    (fuel : Nat) :
    Machine.Follows (Chunk.empty.extend (script.program line)) fuel m.reset
      (script.exec (some Machine.maxStack) fuel (.before m))
      fun _ => Machine.Ends [] (script.lower [] 0).size := by
  obtain ⟨hscoped, hlimits⟩ := hfits
  rw [Decls.program, Lowering.limits_append_instruction] at hlimits
  have hholds := Chunk.holds_extend_empty (script.program line)
  have hstart : Machine.Ends [] 0 (.before m) m.reset :=
    ⟨rfl, rfl, rfl, Nat.zero_le _, rfl, rfl, hroom⟩
  refine Machine.Follows.mono
    (Machine.follows_decls script (Nat.zero_le _) hscoped hlimits hholds.left hstart) ?_
  intro _ s m' hends
  rwa [script.blocks_nil, Nat.zero_add] at hends

/-- The machine runs on as long as the evaluation does, and when that ends it ends alike. -/
theorem observe_alike (hfits : ScriptFits line script) (hroom : m.output.room = none)
    (fuel : Nat) :
    ((script.observe (some Machine.maxStack) (.before m) fuel).1 = .unfinished →
      (m.observe (Chunk.empty.extend (script.program line)) fuel).1 = .unfinished) ∧
    ((script.observe (some Machine.maxStack) (.before m) fuel).1 ≠ .unfinished →
      ∃ steps, m.observe (Chunk.empty.extend (script.program line)) steps =
        script.observe (some Machine.maxStack) (.before m) fuel) := by
  have hfollows := follows_script hfits hroom fuel
  have hret := (Chunk.holds_extend_empty (script.program line)).right.code
  rw [Nat.zero_add] at hret
  unfold Decls.observe Decls.evaluate
  cases hexec : script.exec (some Machine.maxStack) fuel (.before m) with
  | ok _ s =>
    rw [hexec] at hfollows
    obtain ⟨count, m', hreaches, hends⟩ := hfollows
    -- behind the code of the script there is only the return
    have hstep := Machine.step_of_codeAt hret hends.2.ip
    refine ⟨nofun, fun _ => ⟨count + 1, ?_⟩⟩
    rw [hreaches.observe_finished hstep]
    exact congrArg (Outcome.finished, ·) (Prod.ext hends.2.globals hends.2.written)
  | error stop s =>
    rw [hexec] at hfollows
    cases stop with
    | fault e =>
      obtain ⟨count, before, m', hreaches, hstep, hline, hglobals, hwritten⟩ := hfollows
      refine ⟨nofun, fun _ => ⟨count + 1, ?_⟩⟩
      rw [hreaches.observe_failed hstep hline, hglobals, hwritten]
    | outOfFuel =>
      -- rounds without end take steps without end
      obtain ⟨count, m', hcount, hreaches⟩ := hfollows
      exact ⟨fun _ => hreaches.observe_unfinished hcount, fun h => absurd rfl h⟩

/-- What a script shows, its code shows. -/
theorem shows_of_shows (hfits : ScriptFits line script) (hroom : m.output.room = none)
    {b : Behaviour} (h : Shows (script.observe (some Machine.maxStack) (.before m)) b) :
    Shows (m.observe (Chunk.empty.extend (script.program line))) b := by
  have halike := observe_alike hfits hroom
  cases b with
  | diverges =>
    intro steps
    exact (halike steps).1 (h steps)
  | finished globals printed =>
    obtain ⟨fuel, hfuel⟩ := h
    obtain ⟨steps, hsteps⟩ := (halike fuel).2 (by rw [hfuel]; nofun)
    exact ⟨steps, hsteps.trans hfuel⟩
  | failed e globals printed =>
    obtain ⟨fuel, hfuel⟩ := h
    obtain ⟨steps, hsteps⟩ := (halike fuel).2 (by rw [hfuel]; nofun)
    exact ⟨steps, hsteps.trans hfuel⟩

/-- A script and its code have the same behaviour. -/
theorem shows_program_iff (hfits : ScriptFits line script) (hroom : m.output.room = none)
    (b : Behaviour) :
    Shows (m.observe (Chunk.empty.extend (script.program line))) b ↔
      Shows (script.observe (some Machine.maxStack) (.before m)) b := by
  constructor
  · intro h
    -- the script has a behaviour, and the code has no other
    obtain ⟨b', hb'⟩ := exists_shows (script.observe (some Machine.maxStack) (.before m))
    rwa [h.unique (Machine.observe_add _ m) (shows_of_shows hfits hroom hb')]
  · exact shows_of_shows hfits hroom

/-- The tokens are those of the script and then the end. Operators group as they bind, and every
`else` belongs to the nearest `if`. -/
def Decls.Spells (script : Decls) (tokens : List Token) : Prop :=
  script.Grouped ∧ ∃ rest, tokens = script.tokens ++ rest ∧ nextKind rest = .eof

end Tree

/-- **The compiler is correct.** Tokens that compile are those of a script, and on a machine whose
output takes everything, whatever variables it has, their code does what the script says. Here the
evaluation of the script has as many places for values as the machine; a run that does not end for
want of one does what the script says without such a limit. -/
theorem shows_compile_iff {tokens : List Token} {chunk : Chunk}
    (h : (compile tokens).result = .ok chunk) :
    (∃ script : Decls, script.Spells tokens) ∧
      ∀ script : Decls, script.Spells tokens → ∀ m : Machine, m.output.room = none →
        (∀ b, Shows (m.observe chunk) b ↔
          Shows (script.observe (some Machine.maxStack) (.before m)) b) ∧
        ((∀ b, Shows (m.observe chunk) b → ¬ b.IsFull) →
          ∀ b, Shows (m.observe chunk) b ↔ Shows (script.observe none (.before m)) b) := by
  obtain ⟨script, rest, hgrouped, htokens, hrest, -, -⟩ := result_compile_eq_ok.mp h
  refine ⟨⟨script, hgrouped, rest, htokens, hrest⟩, ?_⟩
  rintro script ⟨hgrouped, rest, rfl, hrest⟩ m hroom
  obtain ⟨hfits, rfl⟩ := (result_compile_eq_ok_iff hgrouped hrest).mp h
  have hlimited := shows_program_iff hfits hroom
  refine ⟨hlimited, fun hplaces b => ?_⟩
  rw [hlimited]
  apply Decls.shows_iff_of_not_full
  intro b' hb'
  exact hplaces b' ((hlimited b').mpr hb')

/-- The script `while (a) a = nil;`. -/
def whileScript : Decls :=
  .statement
    (.whileLoop ⟨⟨.whileKw, "while", none, 1⟩, rfl⟩
      ⟨⟨⟨.leftParen, "(", none, 1⟩, rfl⟩, .name ⟨⟨.identifier, "a", none, 1⟩, rfl⟩,
        ⟨⟨.rightParen, ")", none, 1⟩, rfl⟩⟩
      (.expression
        (.assign ⟨⟨.identifier, "a", none, 2⟩, rfl⟩ ⟨⟨.equal, "=", none, 2⟩, rfl⟩
          (.constant .nil ⟨⟨.nilKw, "nil", none, 2⟩, rfl⟩))
        ⟨⟨.semicolon, ";", none, 2⟩, rfl⟩))
    .nil

theorem spells_whileScript : whileScript.Spells whileTokens := by
  refine ⟨?_, [⟨.eof, "", none, 3⟩], rfl, rfl⟩
  simp [whileScript, Decls.Grouped, Stmt.Grouped, Expr.Grouped]

/-- The script takes two rounds where `a` is true, and fails in its first line where there is no
`a`. -/
theorem shows_compile_iff_while :
    ∃ chunk, (compile whileTokens).result = .ok chunk ∧
      Shows (({ Machine.start (.ofRoom none) with
          globals := (∅ : Globals).insert "a" (.bool true) } : Machine).observe chunk)
        (.finished ((∅ : Globals).insert "a" .nil) #[]) ∧
      Shows ((Machine.start (.ofRoom none)).observe chunk)
        (.failed ⟨.undefinedVariable "a", 1⟩ ∅ #[]) := by
  obtain ⟨chunk, hchunk⟩ := compile_whileTokens
  refine ⟨chunk, hchunk, ?_, ?_⟩
  · apply ((((shows_compile_iff hchunk).2 whileScript spells_whileScript) _ rfl).1 _).mpr
    exact ⟨2, rfl⟩
  · apply ((((shows_compile_iff hchunk).2 whileScript spells_whileScript) _ rfl).1 _).mpr
    exact ⟨1, rfl⟩

end StackScript
