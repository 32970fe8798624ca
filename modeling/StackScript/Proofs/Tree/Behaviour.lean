import StackScript.Proofs.Actions
import StackScript.Proofs.Tree.Evaluation

/-!
# What can be seen of a run

A script and its code are compared by what they show: how they end, and the variables and the output
that they leave. Both are given a number of steps or rounds, of which enough show the end, and if no
number is enough the run goes on forever.

* **`Shows`**: the behaviour of anything that is given a number of steps.
* **`Restricts`**: places for values make no difference to an evaluation that does not run out of
  them.
* **`Decls.shows_iff_of_not_full`**: so a script that has enough places behaves as it does without a
  limit.
-/

namespace StackScript

/-! ## Behaviours

What can be seen of a program that is given more and more steps: it ends in a certain way, or it
goes on forever and the output grows. -/

/-- How a run ends, with the global variables and the bytes that it leaves. -/
inductive Behaviour where
  | finished (globals : Globals) (printed : Array UInt8)
  | failed (error : RuntimeError) (globals : Globals) (printed : Array UInt8)
  | diverges

/-- The run has ended because there was no place for a value. -/
def Behaviour.IsFull : Behaviour → Prop
  | failed error _ _ => error.fault = .stackOverflow
  | _ => False

/-- What something shows that is given a number of steps. -/
def Shows (run : Nat → Outcome RuntimeError × Globals × Array UInt8) : Behaviour → Prop
  | .finished globals printed => ∃ steps, run steps = (.finished, globals, printed)
  | .failed error globals printed => ∃ steps, run steps = (.failed error, globals, printed)
  | .diverges => ∀ steps, (run steps).1 = .unfinished

/-- Everything shows a behaviour. -/
theorem exists_shows (run : Nat → Outcome RuntimeError × Globals × Array UInt8) :
    ∃ b, Shows run b := by
  by_cases h : ∀ steps, (run steps).1 = .unfinished
  · exact ⟨.diverges, h⟩
  · obtain ⟨steps, hsteps⟩ := Classical.not_forall.mp h
    cases hrun : run steps with
    | mk outcome rest =>
      obtain ⟨globals, printed⟩ := rest
      rw [hrun] at hsteps
      cases outcome with
      | finished => exact ⟨.finished globals printed, steps, hrun⟩
      | failed e => exact ⟨.failed e globals printed, steps, hrun⟩
      | unfinished => exact absurd rfl hsteps

/-- More steps do not change how a run has ended, so it has one behaviour only. -/
theorem Shows.unique {run : Nat → Outcome RuntimeError × Globals × Array UInt8}
    (hstable : ∀ steps more, (run steps).1 ≠ .unfinished → run (steps + more) = run steps)
    {b b' : Behaviour} (h : Shows run b) (h' : Shows run b') : b = b' := by
  -- two runs that have ended are equal to the one with the steps of both
  have hended : ∀ {n n' r r'}, run n = r → run n' = r' → r.1 ≠ .unfinished → r'.1 ≠ .unfinished →
      r = r' := by
    rintro n n' r r' rfl rfl hr hr'
    rw [← hstable n n' hr, ← hstable n' n hr', Nat.add_comm]
  -- and a run that has ended does not go on forever
  have hforever : ∀ {n r}, run n = r → r.1 ≠ .unfinished → ¬ Shows run .diverges := by
    rintro n r rfl hr hall
    exact hr (hall n)
  cases b with
  | diverges =>
    cases b' with
    | diverges => rfl
    | finished _ _ | failed _ _ _ =>
      obtain ⟨n', hn'⟩ := h'
      exact absurd h (hforever hn' nofun)
  | finished _ _ | failed _ _ _ =>
    obtain ⟨n, hn⟩ := h
    cases b' with
    | diverges => exact absurd h' (hforever hn nofun)
    | finished _ _ | failed _ _ _ =>
      obtain ⟨n', hn'⟩ := h'
      simpa using hended hn hn' nofun nofun

namespace Tree

/-- What an evaluation leaves for others to see. -/
def Decls.observe (places : Option Nat) (script : Decls) (s : Store) (fuel : Nat) :
    Outcome RuntimeError × Globals × Array UInt8 :=
  let (outcome, s') := script.evaluate places fuel s
  (outcome, s'.globals, s'.printed)

/-! ## Places for values

An evaluation with a limit for the values that are held does the same as one without, as long as the
limit is not reached. -/

/-- The first evaluation is the second one, unless there is no place for a value. -/
def Restricts {α : Type} (x y : EvalM α) : Prop :=
  ∀ s, x s = y s ∨ ∃ line s', x s = .error (.fault ⟨.stackOverflow, line⟩) s'

section Restricts

variable {α β : Type} {x y : EvalM α}

theorem Restricts.refl (x : EvalM α) : Restricts x x := fun _ => .inl rfl

/-- Where the first action reaches the limit, the second is not evaluated. -/
theorem Restricts.bind (h : Restricts x y) {f g : α → EvalM β} (hf : ∀ a, Restricts (f a) (g a)) :
    Restricts (x >>= f) (y >>= g) := by
  intro s
  rcases h s with heq | ⟨line, s', hfull⟩
  · cases hy : y s with
    | ok a s' =>
      rw [hy] at heq
      rw [bind_of_ok heq, bind_of_ok hy]
      exact hf a s'
    | error stop s' =>
      rw [hy] at heq
      rw [bind_of_error heq, bind_of_error hy]
      exact .inl rfl
  · exact .inr ⟨line, s', bind_of_error hfull⟩

theorem Restricts.discard (h : Restricts x y) : Restricts (discard x) (discard y) := by
  intro s
  rcases h s with heq | ⟨line, s', hfull⟩
  · cases hy : y s with
    | ok a s' =>
      rw [hy] at heq
      rw [discard_of_ok heq, discard_of_ok hy]
      exact .inl rfl
    | error stop s' =>
      rw [hy] at heq
      rw [discard_of_error heq, discard_of_error hy]
      exact .inl rfl
  · exact .inr ⟨line, s', discard_of_error hfull⟩

theorem Restricts.ite {c : Prop} [Decidable c] {x' y' : EvalM α} (h : Restricts x y)
    (h' : Restricts x' y') : Restricts (if c then x else x') (if c then y else y') := by
  by_cases hc : c
  · rw [if_pos hc, if_pos hc]
    exact h
  · rw [if_neg hc, if_neg hc]
    exact h'

end Restricts

/-- The only action that looks at the limit. -/
theorem restricts_keep (places : Option Nat) (held line : Nat) (value : Value) :
    Restricts (keep places held line value) (keep none held line value) := by
  intro s
  unfold keep
  rw [bind_of_ok (get_apply s), bind_of_ok (get_apply s)]
  cases h : places.all fun n => s.frames.flatten.length + held < n with
  | true => exact .inl rfl
  | false => exact .inr ⟨line, s, rfl⟩

theorem restricts_eval (places : Option Nat) (e : Expr) (held : Nat) :
    Restricts (e.eval places held) (e.eval none held) := by
  induction e generalizing held with
  | constant value word => exact restricts_keep places held _ _
  | number token value reads => exact restricts_keep places held _ _
  | string token => exact restricts_keep places held _ _
  | name token => exact (Restricts.refl _).bind fun value => restricts_keep places held _ value
  | assign target equal value ih => exact (ih held).bind fun _ => .refl _
  | grouping left inner right ih => exact ih held
  | unary operator token operand ih => exact (ih held).bind fun _ => .refl _
  | binary operator left token right ihleft ihright =>
    exact (ihleft held).bind fun _ => (ihright (held + 1)).bind fun _ => .refl _
  | and left token right ihleft ihright =>
    exact (ihleft held).bind fun _ => (Restricts.refl _).ite (ihright held)
  | or left token right ihleft ihright =>
    exact (ihleft held).bind fun _ => (ihright held).ite (.refl _)

/-- By induction on the number of rounds. -/
theorem restricts_rounds {test test' : EvalM Bool} {body body' step step' : EvalM Unit}
    (htest : Restricts test test') (hbody : Restricts body body') (hstep : Restricts step step')
    (fuel : Nat) : Restricts (rounds test body step fuel) (rounds test' body' step' fuel) := by
  induction fuel with
  | zero => exact .refl _
  | succ fuel ih =>
    exact htest.bind fun _ => (hbody.bind fun _ => hstep.bind fun _ => ih).ite (.refl _)

/-- Opening and closing a block takes no place. -/
theorem restricts_inBlock {body body' : EvalM Unit} (h : Restricts body body') :
    Restricts (inBlock body) (inBlock body') :=
  (Restricts.refl _).bind fun _ => h.bind fun _ => .refl _

theorem restricts_evalTest (places : Option Nat) (condition : Option Expr) :
    Restricts (evalTest places condition) (evalTest none condition) := by
  cases condition with
  | none => exact .refl _
  | some condition => exact (restricts_eval places condition 0).bind fun _ => .refl _

theorem restricts_execStep (places : Option Nat) (increment : Option Expr) :
    Restricts (execStep places increment) (execStep none increment) := by
  cases increment with
  | none => exact .refl _
  | some increment => exact (restricts_eval places increment 0).discard

theorem restricts_declare (places : Option Nat) (d : VarDecl) :
    Restricts (d.exec places) (d.exec none) := by
  obtain ⟨name, initializer, semicolon⟩ := d
  refine Restricts.bind ?_ fun _ => .refl _
  cases initializer with
  | none => exact restricts_keep places 0 _ _
  | some initializer => exact restricts_eval places initializer.2 0

theorem restricts_forStart (places : Option Nat) (start : ForStart) :
    Restricts (start.exec places) (start.exec none) := by
  cases start with
  | none semicolon => exact .refl _
  | declaration keyword declared => exact restricts_declare places declared
  | expression value semicolon => exact (restricts_eval places value 0).discard

mutual

/-- By recursion on the statement, together with the next two theorems. -/
theorem restricts_stmt (places : Option Nat) (fuel : Nat) (t : Stmt) :
    Restricts (t.exec places fuel) (t.exec none fuel) := by
  match t with
  | .print keyword value semicolon => exact (restricts_eval places value 0).bind fun _ => .refl _
  | .expression value semicolon => exact (restricts_eval places value 0).discard
  | .conditional keyword condition body otherwise =>
    exact (restricts_eval places condition.value 0).bind fun _ =>
      (restricts_else places fuel otherwise).ite (restricts_stmt places fuel body)
  | .whileLoop keyword condition body =>
    exact restricts_rounds (restricts_evalTest places _) (restricts_stmt places fuel body)
      (restricts_execStep places _) fuel
  | .forLoop keyword clauses body =>
    refine restricts_inBlock ((restricts_forStart places clauses.start).bind fun _ => ?_)
    exact restricts_rounds (restricts_evalTest places _) (restricts_stmt places fuel body)
      (restricts_execStep places _) fuel
  | .block left body right => exact restricts_inBlock (restricts_decls places fuel body)

theorem restricts_else (places : Option Nat) (fuel : Nat) (o : Else) :
    Restricts (o.exec places fuel) (o.exec none fuel) := by
  match o with
  | .none => exact .refl _
  | .branch keyword body => exact restricts_stmt places fuel body

theorem restricts_decls (places : Option Nat) (fuel : Nat) (ds : Decls) :
    Restricts (ds.exec places fuel) (ds.exec none fuel) := by
  match ds with
  | .nil => exact .refl _
  | .declaration keyword declared rest =>
    exact (restricts_declare places declared).bind fun _ => restricts_decls places fuel rest
  | .statement first rest =>
    exact (restricts_stmt places fuel first).bind fun _ => restricts_decls places fuel rest

end

/-- Without a limit a script shows what it shows with enough places. -/
theorem Decls.shows_iff_of_not_full {places : Option Nat} {script : Decls} {s : Store}
    (h : ∀ b, Shows (script.observe places s) b → ¬ b.IsFull) (b : Behaviour) :
    Shows (script.observe places s) b ↔ Shows (script.observe none s) b := by
  have hsame : script.observe places s = script.observe none s := by
    funext fuel
    rcases restricts_decls places fuel script s with heq | ⟨line, s', hfull⟩
    · rw [observe, observe, evaluate, evaluate, heq]
    · have hshows : Shows (script.observe places s)
          (.failed ⟨.stackOverflow, line⟩ s'.globals s'.printed) := by
        refine ⟨fuel, ?_⟩
        rw [observe, evaluate, hfull]
      exact absurd rfl (h _ hshows)
  rw [hsame]

end Tree

end StackScript
