import Mathlib.Data.List.Forall2
import StackScript.Proofs.Machine.Concatenation
import StackScript.Proofs.Machine.Surroundings

/-!
# Layout and meaning

The lines of the tokens end up in the lines of the code and of the errors, and nowhere else. To say
this of all steps of the compiler, lines are renumbered by any function: compiling renumbered
tokens gives the renumbered result. Tokens that differ only in their lines become the same if all
of them are put on one line, so that their results differ only in lines.

* **`Equivariant`**: a step that treats all lines alike; all steps of the compiler do.
* **`compile_renumber`**: compiling renumbered tokens.
* **`compile_eqUpToLine`**: tokens that differ only in their lines.
* **`Machine.EqUpToLine`**: machines that differ at most in the line they are on.
* **`runFrom_withLines`**: a run of a chunk with other lines.
* **`layout_irrelevant`**: both together.
-/

namespace StackScript

/-! ## Renumbering

A function is applied to all lines. It need not be injective. -/

def Token.renumber (f : Nat → Nat) (token : Token) : Token :=
  { token with line := f token.line }

def Chunk.renumber (f : Nat → Nat) (chunk : Chunk) : Chunk :=
  { chunk with lines := chunk.lines.map f }

namespace Compile

variable (f : Nat → Nat)

def Error.renumber (e : Error) : Error :=
  { e with line := f e.line }

def Cursor.renumber (c : Cursor) : Cursor where
  previous := c.previous.renumber f
  ahead := c.ahead.map (Token.renumber f)

def State.renumber (s : State) : State :=
  { s with
    cursor := s.cursor.renumber f
    chunk := s.chunk.renumber f
    errors := s.errors.map (Error.renumber f) }

def Compilation.renumber (c : Compilation) : Compilation :=
  { c with
    chunk := c.chunk.renumber f
    errors := c.errors.map (Error.renumber f) }

def renumberResult {α : Type} : EStateM.Result Error State α → EStateM.Result Error State α
  | .ok a s => .ok a (s.renumber f)
  | .error e s => .error (e.renumber f) (s.renumber f)

/-! ### Cursors

Passing tokens does not depend on their lines. -/

/-- Behind the last token the end has its line. -/
theorem Cursor.current_renumber (c : Cursor) :
    (c.renumber f).current = c.current.renumber f := by
  obtain ⟨previous, ahead⟩ := c
  cases ahead <;> rfl

theorem Cursor.advance_renumber (c : Cursor) :
    (c.renumber f).advance = c.advance.renumber f := by
  unfold Cursor.advance
  rw [current_renumber]
  simp only [renumber, List.map_tail]

/-- The next statement is found by the kinds of tokens. -/
theorem Cursor.skipToStatement_renumber (previous : Token) (ahead : List Token) :
    skipToStatement (previous.renumber f) (ahead.map (Token.renumber f)) =
      (skipToStatement previous ahead).renumber f := by
  induction ahead generalizing previous with
  | nil => rfl
  | cons token rest ih =>
    rw [List.map_cons, skipToStatement, skipToStatement]
    by_cases hstop : token.kind = .eof ∨ previous.kind = .semicolon ∨ token.kind.startsStatement
    · rw [if_pos hstop]
      exact if_pos hstop
    · rw [if_neg hstop, ← ih]
      exact if_neg hstop

/-! ## Steps that treat all lines alike

A step that does the same to renumbered tokens, with renumbered results. -/

/-- Started on renumbered lines, the step does the same on renumbered lines. -/
def Equivariant {α : Type} (x : CompileM α) : Prop :=
  ∀ s : State, x (s.renumber f) = renumberResult f (x s)

section Equivariant

variable {f} {α β : Type}

theorem equivariant_bind {x : CompileM α} {g : α → CompileM β} (hx : Equivariant f x)
    (hg : ∀ a, Equivariant f (g a)) : Equivariant f (x >>= g) := by
  intro s
  have hfirst := hx s
  cases hrun : x s with
  | ok a t =>
    rw [hrun] at hfirst
    rw [bind_of_ok hrun, bind_of_ok hfirst]
    exact hg a t
  | error e t =>
    rw [hrun] at hfirst
    rw [bind_of_error hrun, bind_of_error hfirst]
    rfl

/-- Code that is appended on a line is appended on the renumbered line. -/
theorem equivariant_emits {change : Nat → Chunk → List Nat → Chunk × List Nat}
    (h : OnLine change) : Equivariant f (modify fun s =>
      { s with
        chunk := (change s.cursor.previous.line s.chunk s.openJumps).1
        openJumps := (change s.cursor.previous.line s.chunk s.openJumps).2 }) := by
  intro s
  obtain ⟨code, count, constants, openJumps', hchange⟩ := h s.chunk s.openJumps
  have hbefore : change s.cursor.previous.line s.chunk s.openJumps = _ :=
    hchange s.cursor.previous.line s.chunk.lines
  have hafter : change (s.renumber f).cursor.previous.line (s.renumber f).chunk
      (s.renumber f).openJumps = _ :=
    hchange (f s.cursor.previous.line) (s.chunk.lines.map f)
  rw [modify_apply, modify_apply, hbefore, hafter]
  simp [renumberResult, State.renumber, Chunk.renumber]

/-- The error that was held back is renumbered too. -/
theorem equivariant_holdsBack {x g : CompileM Unit} (hx : Equivariant f x)
    (hg : Equivariant f g) :
    Equivariant f (attempt x >>= fun outcome => g >>= fun _ => settle outcome) := by
  intro s
  have hfirst := hx s
  cases hrun : x s with
  | ok _ t =>
    rw [hrun] at hfirst
    rw [bind_of_ok (attempt_of_ok hrun), bind_of_ok (attempt_of_ok hfirst)]
    exact equivariant_bind hg (fun _ _ => rfl) t
  | error e t =>
    rw [hrun] at hfirst
    rw [bind_of_ok (attempt_of_error hrun), bind_of_ok (attempt_of_error hfirst)]
    -- the error is carried past the second step, so this is not one sequence for both runs
    have hsecond := hg t
    cases hrest : g t with
    | ok _ u =>
      rw [hrest] at hsecond
      rw [bind_of_ok hrest, bind_of_ok hsecond]
      rfl
    | error e' u =>
      rw [hrest] at hsecond
      rw [bind_of_error hrest, bind_of_error hsecond]
      rfl

/-- The error that was listed is renumbered too. -/
theorem equivariant_recovers {x : CompileM Unit} (hx : Equivariant f x) :
    Equivariant f (recovering x) := by
  intro s
  have hfirst := hx s
  unfold recovering
  cases hrun : x s with
  | ok _ t =>
    rw [hrun] at hfirst
    rw [bind_of_ok (attempt_of_ok hrun), bind_of_ok (attempt_of_ok hfirst)]
    rfl
  | error e t =>
    rw [hrun] at hfirst
    rw [bind_of_ok (attempt_of_error hrun), bind_of_ok (attempt_of_error hfirst)]
    simp only [modify_apply, renumberResult, State.renumber, Array.map_push]
    -- where the compiler goes on depends on the kinds of the tokens only
    have hcursor : (t.cursor.renumber f).synchronize = t.cursor.synchronize.renumber f :=
      Cursor.skipToStatement_renumber f t.cursor.previous t.cursor.ahead
    rw [hcursor]

instance : Universal (@Equivariant f) where
  pure _ _ := rfl
  bind := equivariant_bind
  inspect {_ g} hsame hg s := by
    have hlook : g (s.renumber f) = g s := hsame s _ _ _
    show g (s.renumber f) (s.renumber f) = _
    rw [hlook]
    exact hg s s
  readsPrevious {_ g} hsame hg s := by
    show g (s.cursor.previous.renumber f) (s.renumber f) = _
    rw [Token.renumber, hsame]
    exact hg _ s
  readsCurrent {_ g} hsame hg s := by
    show g (s.cursor.renumber f).current (s.renumber f) = _
    rw [Cursor.current_renumber, Token.renumber, hsame]
    exact hg _ s
  advance s := by
    show EStateM.Result.ok () { s.renumber f with cursor := (s.cursor.renumber f).advance } = _
    rw [Cursor.advance_renumber]
    rfl
  emits _ h := equivariant_emits h
  refuses _ _ := rfl
  failAtPrevious _ _ := rfl
  failAtCurrent {_} cause s := by
    show EStateM.Result.error (Error.atToken (s.cursor.renumber f).current cause) (s.renumber f) = _
    rw [Cursor.current_renumber]
    rfl
  rescopes _ _ := rfl
  holdsBack hx hg _ := equivariant_holdsBack hx hg
  recovers := equivariant_recovers

end Equivariant

/-! ## Compiling renumbered tokens

Every step of the compiler treats all lines alike, so the whole compiler does. -/

variable {f}

/-- Compiling treats all lines alike, apart from the first one, where it starts. -/
theorem compile_renumber (hfirst : f 1 = 1) (tokens : List Token) :
    compile (tokens.map (Token.renumber f)) = (compile tokens).renumber f := by
  have hstart : State.start (tokens.map (Token.renumber f)) = (State.start tokens).renumber f := by
    simp [State.start, State.renumber, Cursor.start, Cursor.renumber, Token.renumber, Token.eof,
      Chunk.renumber, Chunk.empty, hfirst]
  have hprogram : Equivariant f (program tokens.length) := respects_program tokens.length
  have hrun := hprogram (.start tokens)
  have hcompilation : ∀ s : State, (s.renumber f).compilation = s.compilation.renumber f := by
    intro s
    simp [State.compilation, State.renumber, Compilation.renumber]
  unfold compile
  rw [List.length_map, hstart, hrun]
  cases program tokens.length (.start tokens) with
  | ok _ s => exact hcompilation s
  | error _ s => exact hcompilation s

/-! ## Tokens that differ only in their lines

If all lines are made equal, two such lists of tokens become one, and so does what they compile to.
-/

/-- The errors differ at most in their lines. -/
structure Error.EqUpToLine (a b : Error) : Prop where
  place : a.place = b.place
  cause : a.cause = b.cause

/-- Both results are code that differs at most in its lines, or as many errors that differ at most
in theirs. -/
inductive EqUpToLines : Except (List Error) Chunk → Except (List Error) Chunk → Prop where
  | ok {a b : Chunk} : a.code = b.code → a.constants = b.constants → EqUpToLines (.ok a) (.ok b)
  | error {a b : List Error} : List.Forall₂ Error.EqUpToLine a b → EqUpToLines (.error a) (.error b)

/-- Tokens that differ only in their lines are the same on one line. -/
theorem map_renumber_eq {tokens tokens' : List Token}
    (h : List.Forall₂ Token.EqUpToLine tokens tokens') :
    tokens.map (Token.renumber fun _ => 1) = tokens'.map (Token.renumber fun _ => 1) := by
  induction h with
  | nil => rfl
  | @cons a b _ _ hab _ ih =>
    have htoken : a.renumber (fun _ => 1) = b.renumber fun _ => 1 := by
      unfold Token.renumber
      rw [hab.kind, hab.lexeme, hab.literal]
    rw [List.map_cons, List.map_cons, htoken, ih]

/-- Errors that become equal differ only in their lines. -/
theorem forall₂_eqUpToLine {errors errors' : List Error}
    (h : errors.map (Error.renumber f) = errors'.map (Error.renumber f)) :
    List.Forall₂ Error.EqUpToLine errors errors' := by
  rw [← List.forall₂_eq_eq_eq, List.forall₂_map_left_iff, List.forall₂_map_right_iff] at h
  refine h.imp fun e e' he => ⟨?_, ?_⟩
  · exact congrArg (fun e => e.place) he
  · exact congrArg (fun e => e.cause) he

/-- So do results that become equal. -/
theorem eqUpToLines_of_renumber {c c' : Compilation} (h : c.renumber f = c'.renumber f) :
    EqUpToLines c.result c'.result := by
  have hcode : c.chunk.code = c'.chunk.code := congrArg (fun c => c.chunk.code) h
  have hconstants : c.chunk.constants = c'.chunk.constants :=
    congrArg (fun c => c.chunk.constants) h
  have herrors : c.errors.map (Error.renumber f) = c'.errors.map (Error.renumber f) :=
    congrArg (fun c => c.errors) h
  have hempty : c.errors.isEmpty = c'.errors.isEmpty := by
    simpa using congrArg List.isEmpty herrors
  unfold Compilation.result
  rw [← hempty]
  split
  · exact .ok hcode hconstants
  · exact .error (forall₂_eqUpToLine herrors)

/-- What is compiled does not depend on the lines of the tokens, apart from its own lines. -/
theorem compile_eqUpToLine {tokens tokens' : List Token}
    (h : List.Forall₂ Token.EqUpToLine tokens tokens') :
    EqUpToLines (compile tokens).result (compile tokens').result := by
  -- both are compared with the same tokens on one line, so no relation between two runs is needed
  have hsame : (compile tokens).renumber (fun _ => 1) = (compile tokens').renumber fun _ => 1 := by
    rw [← compile_renumber rfl, ← compile_renumber rfl, map_renumber_eq h]
  exact eqUpToLines_of_renumber hsame

end Compile

/-! ## Running with other lines

The machine looks at lines only to report them. -/

/-- Both outcomes are of the same kind, and errors are related. -/
inductive Outcome.Rel {ε : Type} (R : ε → ε → Prop) : Outcome ε → Outcome ε → Prop where
  | finished : Rel R .finished .finished
  | failed {a b : ε} : R a b → Rel R (.failed a) (.failed b)
  | unfinished : Rel R .unfinished .unfinished

/-- Errors that are related stay so under another type of errors. -/
theorem Outcome.Rel.mapError {ε ε' : Type} {R : ε → ε → Prop} {S : ε' → ε' → Prop} {g : ε → ε'}
    (hg : ∀ a b, R a b → S (g a) (g b)) {a b : Outcome ε} (h : Rel R a b) :
    Rel S (a.mapError g) (b.mapError g) := by
  cases h with
  | finished => exact .finished
  | failed hab => exact .failed (hg _ _ hab)
  | unfinished => exact .unfinished

/-- The faults are the same. -/
def RuntimeError.EqUpToLine (a b : RuntimeError) : Prop :=
  a.fault = b.fault

namespace Machine

/-- The machines are in the same state, but may be on different lines. -/
structure EqUpToLine (m m' : Machine) : Prop where
  stack : m.stack = m'.stack
  globals : m.globals = m'.globals
  ip : m.ip = m'.ip
  output : m.output = m'.output

/-- The machine on another line. -/
def setLine (line : Nat) (m : Machine) : Machine :=
  { m with line := line }

instance (line : Nat) : InPlace (setLine line) where
  stack _ := rfl
  globals _ := rfl
  setStack _ _ := rfl
  setGlobals _ _ := rfl
  goForward _ _ := rfl
  ip _ := rfl
  setIp _ _ := rfl

instance (line : Nat) : Echoes (setLine line) where
  output _ := rfl
  setOutput _ _ := rfl

theorem eqUpToLine_setLine (m : Machine) (line : Nat) : EqUpToLine (m.setLine line) m :=
  ⟨rfl, rfl, rfl, rfl⟩

/-- When an instruction starts, the line on which the machine was before is of no account. -/
theorem EqUpToLine.atLine {m m' : Machine} (h : EqUpToLine m m') (c c' : Chunk) :
    m.atLine c = (m'.atLine c').setLine (c.line m.ip) := by
  obtain ⟨stack, globals, ip, line, output⟩ := m
  obtain ⟨rfl, rfl, rfl, rfl⟩ := h
  rfl

/-- The lines of a chunk are noted and not looked at otherwise. -/
theorem step_withLines (chunk : Chunk) (lines : Array Nat) {m m' : Machine}
    (h : EqUpToLine m m') :
    step { chunk with lines := lines } m =
      recast (setLine (({ chunk with lines := lines } : Chunk).line m.ip)) (step chunk m') := by
  rw [step_eq_proceed, h.atLine _ chunk]
  exact commutes_proceed chunk (m'.atLine chunk) fun _ => commutes_printLine

/-- The machine looks at the lines of a chunk only to note them, and so to report a fault. -/
theorem runFrom_withLines (chunk : Chunk) (lines : Array Nat) (steps : Nat) {m m' : Machine}
    (h : EqUpToLine m m') :
    EqUpToLine (runFrom { chunk with lines := lines } steps m).2 (runFrom chunk steps m').2 ∧
      Outcome.Rel RuntimeError.EqUpToLine (runFrom { chunk with lines := lines } steps m).1
        (runFrom chunk steps m').1 := by
  induction steps generalizing m m' with
  | zero => exact ⟨h, .unfinished⟩
  | succ steps ih =>
    -- both machines take the same step and stand on different lines after it
    have hstep := step_withLines chunk lines h
    cases hown : step chunk m' with
    | ok progress next =>
      rw [hown] at hstep
      cases progress with
      | running =>
        rw [runFrom_of_step hstep, runFrom_of_step hown]
        exact ih (eqUpToLine_setLine next _)
      | halted =>
        rw [runFrom_of_halt hstep, runFrom_of_halt hown]
        exact ⟨eqUpToLine_setLine next _, .finished⟩
    | error fault last =>
      rw [hown] at hstep
      rw [runFrom_of_fault hstep, runFrom_of_fault hown]
      exact ⟨eqUpToLine_setLine last _, .failed rfl⟩

end Machine

namespace Script

/-- The errors differ at most in lines. -/
inductive Error.EqUpToLines : Error → Error → Prop where
  | compile {a b : List Compile.Error} : List.Forall₂ Compile.Error.EqUpToLine a b →
    EqUpToLines (.compile a) (.compile b)
  | runtime {a b : RuntimeError} : a.EqUpToLine b → EqUpToLines (.runtime a) (.runtime b)

/-- Two texts whose tokens compile alike run alike. -/
theorem execute_eqUpToLines {source source' : String} {tokens tokens' : List Token}
    (hscan : Token.scan source = .ok tokens) (hscan' : Token.scan source' = .ok tokens')
    (h : Compile.EqUpToLines (Compile.compile tokens).result (Compile.compile tokens').result)
    (steps : Nat) (m : Machine) :
    (execute steps source m).2.EqUpToLine (execute steps source' m).2 ∧
      Outcome.Rel Error.EqUpToLines (execute steps source m).1 (execute steps source' m).1 := by
  unfold execute
  rw [compile_of_scan hscan, compile_of_scan hscan']
  generalize (Compile.compile tokens).result = result at h
  generalize (Compile.compile tokens').result = result' at h
  cases h with
  | @ok a b hcode hconstants =>
    have hlines : { b with lines := a.lines } = a := by
      rw [← hcode, ← hconstants]
    obtain ⟨hmachine, houtcome⟩ := Machine.runFrom_withLines b a.lines steps
      (m := m.reset) ⟨rfl, rfl, rfl, rfl⟩
    rw [hlines] at hmachine houtcome
    exact ⟨hmachine, houtcome.mapError fun _ _ => .runtime⟩
  | error herrors => exact ⟨⟨rfl, rfl, rfl, rfl⟩, .failed (.compile herrors)⟩

end Script

/-- **Layout never changes meaning.** Tokens that differ only in their lines compile to the same
code and constants, or to as many errors with the same places and causes. Two scripts with such
tokens, executed on the same machine, leave it in the same state, its output included, and have the
same outcome, apart from the line that the machine is on and the lines of errors. -/
theorem layout_irrelevant {tokens tokens' : List Token}
    (h : List.Forall₂ Token.EqUpToLine tokens tokens') :
    Compile.EqUpToLines (Compile.compile tokens).result (Compile.compile tokens').result ∧
      ∀ source source', Token.scan source = .ok tokens → Token.scan source' = .ok tokens' →
        ∀ steps m, (Script.execute steps source m).2.EqUpToLine
            (Script.execute steps source' m).2 ∧
          Outcome.Rel Script.Error.EqUpToLines (Script.execute steps source m).1
            (Script.execute steps source' m).1 := by
  have hcompile := Compile.compile_eqUpToLine h
  refine ⟨hcompile, fun source source' hscan hscan' steps m => ?_⟩
  exact Script.execute_eqUpToLines hscan hscan' hcompile steps m

/-- The tokens of a sum, on the lines on which its parts stand. -/
def sumTokens (left operator right : Nat) : List Token :=
  [⟨.printKw, "print", none, left⟩, ⟨.nilKw, "nil", none, left⟩, ⟨.plus, "+", none, operator⟩,
    ⟨.trueKw, "true", none, right⟩, ⟨.semicolon, ";", none, right⟩, .eof right]

/-- A sum on one line and on three fails with the same fault. -/
theorem layout_irrelevant_sum :
    Token.scan "print nil+true;" = .ok (sumTokens 1 1 1) ∧
      Token.scan "print nil\n+ // why\ntrue;" = .ok (sumTokens 1 2 3) ∧
      List.Forall₂ Token.EqUpToLine (sumTokens 1 1 1) (sumTokens 1 2 3) ∧
      ∀ steps m, (Script.execute steps "print nil+true;" m).2.EqUpToLine
          (Script.execute steps "print nil\n+ // why\ntrue;" m).2 ∧
        Outcome.Rel Script.Error.EqUpToLines (Script.execute steps "print nil+true;" m).1
          (Script.execute steps "print nil\n+ // why\ntrue;" m).1 := by
  have hscan : Token.scan "print nil+true;" = .ok (sumTokens 1 1 1) := by
    have hscans : Scanner.Scans 1 (Text.encode "print nil+true;") _ :=
      .lexeme rfl rfl (.lexeme rfl rfl (.lexeme rfl rfl (.lexeme rfl rfl (.lexeme rfl rfl
        (.eof rfl)))))
    exact scan_of_scans hscans
  have hscan' : Token.scan "print nil\n+ // why\ntrue;" = .ok (sumTokens 1 2 3) := by
    have hscans : Scanner.Scans 1 (Text.encode "print nil\n+ // why\ntrue;") _ :=
      .lexeme rfl rfl (.lexeme rfl rfl (.lexeme rfl rfl (.lexeme rfl rfl (.lexeme rfl rfl
        (.eof rfl)))))
    exact scan_of_scans hscans
  have hsame : List.Forall₂ Token.EqUpToLine (sumTokens 1 1 1) (sumTokens 1 2 3) :=
    .cons ⟨rfl, rfl, rfl⟩ (.cons ⟨rfl, rfl, rfl⟩ (.cons ⟨rfl, rfl, rfl⟩ (.cons ⟨rfl, rfl, rfl⟩
      (.cons ⟨rfl, rfl, rfl⟩ (.cons ⟨rfl, rfl, rfl⟩ .nil)))))
  exact ⟨hscan, hscan', hsame, (layout_irrelevant hsame).2 _ _ hscan hscan'⟩

end StackScript
